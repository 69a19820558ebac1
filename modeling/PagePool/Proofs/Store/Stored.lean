import PagePool.Proofs.Bytes
import PagePool.Store.Catalog

namespace PagePool

open Bytes

namespace PageFile

variable {fs fs' : Files} {f : PageFile} {n m : UInt32} {data : Bytes}

/-- The files hold every counted page of the file whole. -/
def Fits (fs : Files) (f : PageFile) : Prop := f.size ≤ (fs.bytes f.name).length

def pageBytes (fs : Files) (f : PageFile) (n : UInt32) : Bytes :=
  slice (fs.bytes f.name) (f.offset n) f.pageSize

theorem offset_add_le (h : n < m) (f : PageFile) : f.offset n + f.pageSize ≤ f.offset m := by
  have hlt : n.toNat + 1 ≤ m.toNat := UInt32.lt_iff_toNat_lt.1 h
  calc f.offset n + f.pageSize = (n.toNat + 1) * f.pageSize := by rw [offset, Nat.add_one_mul]
    _ ≤ f.offset m := Nat.mul_le_mul_right f.pageSize hlt

theorem disjoint_of_ne (h : n ≠ m) (f : PageFile) :
    f.offset n + f.pageSize ≤ f.offset m ∨ f.offset m + f.pageSize ≤ f.offset n := by
  have hne : n.toNat ≠ m.toNat := fun e => h (UInt32.toNat.inj e)
  rcases Nat.lt_or_gt_of_ne hne with h | h
  · exact .inl (offset_add_le (UInt32.lt_iff_toNat_lt.2 h) f)
  · exact .inr (offset_add_le (UInt32.lt_iff_toNat_lt.2 h) f)

theorem offset_le_length (hf : Fits fs f) (hn : n < f.pageCount) :
    f.offset n + f.pageSize ≤ (fs.bytes f.name).length :=
  Nat.le_trans (offset_add_le hn f) hf

theorem length_pageBytes (hf : Fits fs f) (hn : n < f.pageCount) :
    (pageBytes fs f n).length = f.pageSize :=
  length_slice (offset_le_length hf hn)

theorem checkRange_eq_ok : f.checkRange n = .ok () ↔ n < f.pageCount := by
  unfold checkRange
  split <;> simp_all

theorem read_eq (hf : Fits fs f) (hn : n < f.pageCount) :
    f.read fs n = .ok (pageBytes fs f n) := by
  unfold read
  rw [checkRange_eq_ok.2 hn]
  exact if_pos (length_pageBytes hf hn)

theorem write_eq_ok (h : f.write fs n data = .ok fs') :
    n < f.pageCount ∧ data.length = f.pageSize ∧
      fs' = fs.put f.name (overwrite (fs.bytes f.name) (f.offset n) data) := by
  unfold write at h
  cases hr : f.checkRange n with
  | error e => simp [hr] at h
  | ok u =>
    rw [hr] at h
    simp only at h
    split at h
    · rename_i hlen
      exact ⟨checkRange_eq_ok.1 hr, hlen, (Except.ok.inj h).symm⟩
    · contradiction

theorem bytes_put_self (fs : Files) (name : String) (bs : Bytes) :
    (fs.put name bs).bytes name = bs := by
  simp [Files.bytes]

theorem bytes_put_of_ne {name other : String} (bs : Bytes) (h : other ≠ name) :
    (fs.put name bs).bytes other = fs.bytes other := by
  rw [Files.bytes, Files.get?_put_of_ne fs bs h]
  rfl

theorem pageBytes_write (hf : Fits fs f) (h : f.write fs n data = .ok fs') (m : UInt32) :
    pageBytes fs' f m = if m = n then data else pageBytes fs f m := by
  obtain ⟨hn, hlen, rfl⟩ := write_eq_ok h
  have hstart : f.offset n ≤ (fs.bytes f.name).length :=
    Nat.le_of_add_right_le (offset_le_length hf hn)
  unfold pageBytes
  rw [bytes_put_self]
  split
  · subst m
    rw [← hlen]
    exact slice_overwrite_self _ hstart
  · rename_i hne
    apply slice_overwrite_of_disjoint hstart
    rw [hlen]
    exact disjoint_of_ne hne f

theorem fits_write (hf : Fits fs f) (h : f.write fs n data = .ok fs') : Fits fs' f := by
  obtain ⟨hn, -, rfl⟩ := write_eq_ok h
  unfold Fits
  rw [bytes_put_self, length_overwrite_of_le (Nat.le_of_add_right_le (offset_le_length hf hn))]
  exact Nat.le_trans hf (Nat.le_max_left _ _)

theorem pageBytes_appendZeros (hf : Fits fs f) (m : UInt32) (hm : m ≤ f.pageCount) :
    pageBytes (appendZeros fs f) f m =
      if m = f.pageCount then zeros f.pageSize else pageBytes fs f m := by
  unfold pageBytes appendZeros
  rw [bytes_put_self]
  split
  · subst m
    have hself := slice_overwrite_self (zeros f.pageSize) hf
    rwa [length_zeros] at hself
  · rename_i hne
    apply slice_overwrite_of_disjoint hf
    rw [length_zeros]
    exact disjoint_of_ne hne f

theorem length_appendZeros (hf : Fits fs f) :
    f.size + f.pageSize ≤ ((appendZeros fs f).bytes f.name).length := by
  have hstart : f.offset f.pageCount ≤ (fs.bytes f.name).length := hf
  unfold appendZeros
  rw [bytes_put_self, length_overwrite_of_le hstart, length_zeros]
  exact Nat.le_max_right _ _

end PageFile

namespace Catalog

/-- The stored bytes of a page, if a table has the page. -/
def stored? (c : Catalog) (q : PageId) : Option Bytes :=
  match c.tables.get? q.table with
  | none => none
  | some t =>
    if q.pageNo < t.numPages then some (t.file.pageBytes c.files q.pageNo) else none

def layout? (c : Catalog) (i : TableId) : Option Layout := (c.tables.get? i).map HeapTable.layout

/-- Every table stands under its own id, is laid out for pages of the catalog's size and keeps
them in a file of its own. -/
structure Sound (c : Catalog) : Prop where
  id_eq : ∀ {i t}, c.tables.get? i = some t → t.id = i
  layout_eq : ∀ {i t}, c.tables.get? i = some t →
    Layout.forPage c.pageSize t.layout.tupleSize = .ok t.layout
  isSome_file : ∀ {i t}, c.tables.get? i = some t → (c.files.get? t.file.name).isSome = true
  pageSize_eq : ∀ {i t}, c.tables.get? i = some t → t.file.pageSize = c.pageSize
  fits : ∀ {i t}, c.tables.get? i = some t → t.file.Fits c.files
  eq_of_name : ∀ {i j t u}, c.tables.get? i = some t → c.tables.get? j = some u →
    t.file.name = u.file.name → i = j

variable {c c' : Catalog} {t u : HeapTable} {i j : TableId} {q : PageId} {d : Bytes}
  {page stored : Page}

theorem table_eq_ok : c.table i = .ok t ↔ c.tables.get? i = some t := by
  unfold table
  split <;> simp_all

theorem table_eq_error {e : Error} (h : c.table i = .error e) :
    c.tables.get? i = none ∧ e = .tableNotFound i := by
  unfold table at h
  split at h
  · rename_i hnone
    exact ⟨hnone, (Except.error.inj h).symm⟩
  · contradiction

theorem stored?_eq_some :
    c.stored? q = some d ↔
      ∃ t, c.tables.get? q.table = some t ∧ q.pageNo < t.numPages ∧
        t.file.pageBytes c.files q.pageNo = d := by
  unfold stored?
  split <;> simp_all

/-- Whatever page is read comes clean and under the id asked for. -/
theorem eq_ofStored_of_readPage (h : c.readPage q = .ok stored) :
    ∃ d, stored = Page.ofStored q d := by
  unfold readPage at h
  cases ht : c.table q.table with
  | error e => simp [ht] at h
  | ok t =>
    rw [ht] at h
    simp only [HeapTable.readPage] at h
    split at h
    · contradiction
    · cases hc : t.checkPage q with
      | error e => simp [hc] at h
      | ok u =>
        rw [hc] at h
        cases hr : t.file.read c.files q.pageNo with
        | error e => simp [hr, Except.map] at h
        | ok d =>
          rw [hr] at h
          exact ⟨d, (Except.ok.inj h).symm⟩

theorem readPage_eq_ok (hs : c.Sound) (h : c.readPage q = .ok stored) :
    ∃ d, c.stored? q = some d ∧ stored = Page.ofStored q d := by
  unfold readPage at h
  cases ht : c.table q.table with
  | error e => simp [ht] at h
  | ok t =>
    rw [ht] at h
    have hget := table_eq_ok.1 ht
    simp only [HeapTable.readPage, HeapTable.checkPage, hs.id_eq hget, if_true] at h
    split at h
    · contradiction
    · by_cases hn : q.pageNo < t.file.pageCount
      · rw [PageFile.read_eq (hs.fits hget) hn] at h
        exact ⟨_, stored?_eq_some.2 ⟨t, hget, hn, rfl⟩, (Except.ok.inj h).symm⟩
      · have hr : t.file.checkRange q.pageNo = .error (.pageOutOfRange q.pageNo t.file.pageCount) :=
          if_neg hn
        simp [PageFile.read, hr, Except.map] at h

theorem readPage_of_table (ht : c.tables.get? q.table = some t) (hid : t.id = q.table)
    (hf : t.file.Fits c.files) (hn : q.pageNo < t.numPages)
    (hdev : t.faults.reads.contains q.pageNo = false) :
    c.readPage q = .ok (Page.ofStored q (t.file.pageBytes c.files q.pageNo)) := by
  simp only [readPage, table_eq_ok.2 ht, HeapTable.readPage, hdev, HeapTable.checkPage, hid,
    if_true, Bool.false_eq_true, if_false]
  rw [PageFile.read_eq hf hn]
  rfl

theorem writePage_eq_ok (hs : c.Sound) (h : c.writePage page = .ok c') :
    ∃ t files, c.tables.get? page.id.table = some t ∧
      t.file.write c.files page.id.pageNo page.data = .ok files ∧ c' = { c with files } := by
  unfold writePage at h
  cases ht : c.table page.id.table with
  | error e => simp [ht] at h
  | ok t =>
    rw [ht] at h
    have hget := table_eq_ok.1 ht
    simp only [HeapTable.writePage, HeapTable.checkPage, hs.id_eq hget, if_true] at h
    split at h
    · contradiction
    · cases hw : t.file.write c.files page.id.pageNo page.data with
      | error e => simp [hw, Except.map] at h
      | ok files =>
        rw [hw] at h
        exact ⟨t, files, hget, hw, (Except.ok.inj h).symm⟩

/-- A write to one table's file is no write to another's. -/
theorem bytes_of_write {n : UInt32} {files : Files} (hs : c.Sound)
    (ht : c.tables.get? i = some t) (hu : c.tables.get? j = some u) (hne : j ≠ i)
    (hw : t.file.write c.files n d = .ok files) : files.bytes u.file.name = c.files.bytes u.file.name := by
  obtain ⟨-, -, rfl⟩ := PageFile.write_eq_ok hw
  exact PageFile.bytes_put_of_ne _ fun hname => hne (hs.eq_of_name hu ht hname)

theorem sound_writePage (hs : c.Sound) (h : c.writePage page = .ok c') : c'.Sound := by
  obtain ⟨t, files, hget, hw, rfl⟩ := writePage_eq_ok hs h
  refine ⟨hs.id_eq, hs.layout_eq, ?_, hs.pageSize_eq, ?_, hs.eq_of_name⟩
  · intro j u hu
    rw [(PageFile.write_eq_ok hw).2.2]
    exact Files.isSome_get?_put (hs.isSome_file hu)
  · intro j u hu
    by_cases hj : j = page.id.table
    · subst hj
      obtain rfl := Option.some.inj (hget.symm.trans hu)
      exact PageFile.fits_write (hs.fits hget) hw
    · have hfits := hs.fits hu
      rwa [PageFile.Fits, ← bytes_of_write hs hget hu hj hw] at hfits

theorem stored?_writePage (hs : c.Sound) (h : c.writePage page = .ok c') (q : PageId) :
    c'.stored? q = if q = page.id then some page.data else c.stored? q := by
  obtain ⟨t, files, hget, hw, rfl⟩ := writePage_eq_ok hs h
  have hn := (PageFile.write_eq_ok hw).1
  unfold stored?
  by_cases ht : q.table = page.id.table
  · rw [ht, hget]
    simp only [PageFile.pageBytes_write (hs.fits hget) hw]
    by_cases hq : q.pageNo = page.id.pageNo
    · obtain rfl : q = page.id := by
        cases q
        cases hp : page.id
        simp_all
      simp [HeapTable.numPages, hn]
    · have hne : q ≠ page.id := fun e => hq (by rw [e])
      simp [hq, hne]
  · have hne : q ≠ page.id := fun e => ht (by rw [e])
    rw [if_neg hne]
    cases hu : c.tables.get? q.table with
    | none => rfl
    | some u => simp only [PageFile.pageBytes, bytes_of_write hs hget hu ht hw]

/-- A write changes files, not what tables there are. -/
theorem tables_writePage (h : c.writePage page = .ok c') :
    c'.tables = c.tables ∧ c'.pageSize = c.pageSize := by
  unfold writePage at h
  cases ht : c.table page.id.table with
  | error e => simp [ht] at h
  | ok t =>
    cases hw : t.writePage c.files page with
    | error e => simp [ht, hw, Except.map] at h
    | ok files =>
      rw [ht] at h
      simp only [hw] at h
      obtain rfl := Except.ok.inj h
      exact ⟨rfl, rfl⟩

/-- What growing a table does: the files gain a zero page, which is counted if it can be. -/
theorem growTable_cases (c : Catalog) (t : HeapTable) :
    (∃ e, c.growTable t = (.error e, c)) ∨
      (∃ e, c.growTable t = (.error e, { c with files := t.file.appendZeros c.files })) ∨
      t.numPages.toNat + 1 < UInt32.size ∧
        c.growTable t = (.ok t.numPages,
          { c with
            tables := c.tables.insert t.id
              { t with file := { t.file with pageCount := t.numPages + 1 } }
            files := t.file.appendZeros c.files }) := by
  by_cases hg : t.faults.growth = true
  · exact .inl ⟨_, by simp only [growTable, HeapTable.grow, hg, if_true]; rfl⟩
  · by_cases hn : t.file.pageCount.toNat + 1 < UInt32.size
    · have hallocate : t.file.allocate c.files = _ := if_pos hn
      refine .inr (.inr ⟨hn, ?_⟩)
      rw [growTable, HeapTable.grow, if_neg hg, hallocate]
      rfl
    · have hallocate : t.file.allocate c.files = _ := if_neg hn
      refine .inr (.inl ⟨.misuse, ?_⟩)
      rw [growTable, HeapTable.grow, if_neg hg, hallocate]

theorem fits_appendZeros (hs : c.Sound) (ht : c.tables.get? i = some t)
    (hu : c.tables.get? j = some u) : u.file.Fits (t.file.appendZeros c.files) := by
  by_cases hj : j = i
  · subst hj
    obtain rfl := Option.some.inj (ht.symm.trans hu)
    exact Nat.le_of_add_right_le (PageFile.length_appendZeros (hs.fits ht))
  · have hfits := hs.fits hu
    rwa [PageFile.Fits, ← PageFile.bytes_put_of_ne _ fun hname => hj (hs.eq_of_name hu ht hname)]
      at hfits

theorem pageBytes_appendZeros (hs : c.Sound) (ht : c.tables.get? i = some t)
    (hu : c.tables.get? j = some u) {n : UInt32} (hn : n < u.numPages) :
    u.file.pageBytes (t.file.appendZeros c.files) n = u.file.pageBytes c.files n := by
  by_cases hj : j = i
  · subst hj
    obtain rfl := Option.some.inj (ht.symm.trans hu)
    rw [PageFile.pageBytes_appendZeros (hs.fits ht) n (UInt32.le_of_lt hn), if_neg]
    exact UInt32.ne_of_lt hn
  · unfold PageFile.pageBytes PageFile.appendZeros
    rw [PageFile.bytes_put_of_ne _ fun hname => hj (hs.eq_of_name hu ht hname)]

theorem stored?_appendZeros (hs : c.Sound) (ht : c.tables.get? i = some t) (q : PageId) :
    { c with files := t.file.appendZeros c.files }.stored? q = c.stored? q := by
  unfold stored?
  simp only
  cases hu : c.tables.get? q.table with
  | none => rfl
  | some u =>
    simp only
    split
    · rename_i hn
      rw [pageBytes_appendZeros hs ht hu hn]
    · rfl

theorem Sound.appendZeros (hs : c.Sound) (ht : c.tables.get? i = some t) :
    { c with files := t.file.appendZeros c.files }.Sound :=
  ⟨hs.id_eq, hs.layout_eq, fun hu => Files.isSome_get?_put (hs.isSome_file hu), hs.pageSize_eq,
    fits_appendZeros hs ht, hs.eq_of_name⟩

/-- Another number of pages, or other faults, make no other table of it. -/
theorem Sound.insert (hs : c.Sound) (ht : c.tables.get? i = some t) (hid : u.id = t.id)
    (hlayout : u.layout = t.layout) (hsize : u.file.pageSize = t.file.pageSize)
    (hname : u.file.name = t.file.name) (hfits : u.file.Fits c.files) : { c with tables := c.tables.insert i u }.Sound := by
  have hold {j : TableId} {v : HeapTable} (hv : (c.tables.insert i u).get? j = some v) :
      ∃ v', c.tables.get? j = some v' ∧ v.id = v'.id ∧ v.layout = v'.layout ∧
        v.file.pageSize = v'.file.pageSize ∧ v.file.name = v'.file.name ∧
        v.file.Fits c.files := by
    rw [OrdMap.get?_insert] at hv
    split at hv
    · subst j
      obtain rfl := Option.some.inj hv
      exact ⟨t, ht, hid, hlayout, hsize, hname, hfits⟩
    · exact ⟨v, hv, rfl, rfl, rfl, rfl, hs.fits hv⟩
  constructor
  · intro j v hv
    obtain ⟨v', hget, hv', -⟩ := hold hv
    exact hv'.trans (hs.id_eq hget)
  · intro j v hv
    obtain ⟨v', hget, -, hv', -⟩ := hold hv
    rw [hv']
    exact hs.layout_eq hget
  · intro j v hv
    obtain ⟨v', hget, -, -, -, hv', -⟩ := hold hv
    rw [hv']
    exact hs.isSome_file hget
  · intro j v hv
    obtain ⟨v', hget, -, -, hv', -⟩ := hold hv
    exact hv'.trans (hs.pageSize_eq hget)
  · intro j v hv
    obtain ⟨-, -, -, -, -, -, hv'⟩ := hold hv
    exact hv'
  · intro j k v w hv hw hvw
    obtain ⟨v', hgetv, -, -, -, hv', -⟩ := hold hv
    obtain ⟨w', hgetw, -, -, -, hw', -⟩ := hold hw
    exact hs.eq_of_name hgetv hgetw (hv' ▸ hw' ▸ hvw)

theorem sound_growTable (hs : c.Sound) (ht : c.tables.get? i = some t) :
    (c.growTable t).2.Sound := by
  rcases growTable_cases c t with ⟨e, h⟩ | ⟨e, h⟩ | ⟨hn, h⟩
  · rwa [h]
  · rw [h]
    exact hs.appendZeros ht
  · rw [h]
    obtain rfl := hs.id_eq ht
    refine (hs.appendZeros ht).insert ht ?_ ?_ ?_ ?_ ?_
    · rfl
    · rfl
    · rfl
    · rfl
    have hlen := PageFile.length_appendZeros (hs.fits ht)
    have hcount : (t.numPages + 1).toNat = t.numPages.toNat + 1 := by
      rw [UInt32.toNat_add]
      exact Nat.mod_eq_of_lt hn
    simp only [PageFile.Fits, PageFile.size, PageFile.offset, hcount, Nat.add_one_mul]
    exact hlen

/-- A table grows by a zero page or not at all. -/
theorem stored?_growTable (hs : c.Sound) (ht : c.tables.get? i = some t) (q : PageId) :
    (c.growTable t).2.stored? q = c.stored? q ∨
      c.stored? q = none ∧ (c.growTable t).2.stored? q = some (zeros c.pageSize) := by
  rcases growTable_cases c t with ⟨e, h⟩ | ⟨e, h⟩ | ⟨hn, h⟩
  · exact .inl (by rw [h])
  · rw [h]
    exact .inl (stored?_appendZeros hs ht q)
  · rw [h, hs.id_eq ht]
    by_cases hq : q.table = i
    · have hcount : (t.numPages + 1).toNat = t.numPages.toNat + 1 := by
        rw [UInt32.toNat_add]
        exact Nat.mod_eq_of_lt hn
      unfold stored?
      simp only [OrdMap.get?_insert, hq, if_true, ht]
      simp only [HeapTable.numPages, UInt32.lt_iff_toNat_lt] at hcount ⊢
      rw [hcount]
      -- a page counted before, the new page, or a page past it
      by_cases hlt : q.pageNo.toNat < t.file.pageCount.toNat
      · rw [if_pos (by omega), if_pos hlt]
        have hsame := pageBytes_appendZeros hs ht ht (UInt32.lt_iff_toNat_lt.2 hlt)
        exact .inl (congrArg some hsame)
      · rw [if_neg hlt]
        by_cases heq : q.pageNo = t.file.pageCount
        · rw [if_pos (by rw [heq]; omega)]
          have hzero := PageFile.pageBytes_appendZeros (hs.fits ht) q.pageNo
            (by rw [heq]; exact UInt32.le_refl _)
          rw [if_pos heq, hs.pageSize_eq ht] at hzero
          exact .inr ⟨rfl, congrArg some hzero⟩
        · have hne : q.pageNo.toNat ≠ t.file.pageCount.toNat := fun e => heq (UInt32.toNat.inj e)
          rw [if_neg (by omega)]
          exact .inl rfl
    · have hsame := stored?_appendZeros hs ht q
      unfold stored? at hsame ⊢
      simp only [OrdMap.get?_insert, hq, if_false] at hsame ⊢
      exact .inl hsame

theorem pageSize_growTable (c : Catalog) (t : HeapTable) :
    (c.growTable t).2.pageSize = c.pageSize := by
  rcases growTable_cases c t with ⟨e, h⟩ | ⟨e, h⟩ | ⟨-, h⟩ <;> rw [h]

theorem layout?_growTable (hs : c.Sound) (ht : c.tables.get? i = some t) (j : TableId) :
    (c.growTable t).2.layout? j = c.layout? j := by
  rcases growTable_cases c t with ⟨e, h⟩ | ⟨e, h⟩ | ⟨-, h⟩
  · rw [h]
  · rw [h]
    rfl
  · rw [h, hs.id_eq ht]
    unfold layout?
    rw [OrdMap.get?_insert]
    split
    · subst j
      rw [ht]
      rfl
    · rfl

/-! A search for room asks for a page that is there, or grows the table. -/

theorem sound_pageOrGrow (hs : c.Sound) (ht : c.tables.get? i = some t) (n : UInt32) :
    (c.pageOrGrow t n).2.Sound := by
  unfold pageOrGrow
  split
  · exact hs
  · exact sound_growTable hs ht

theorem stored?_pageOrGrow (hs : c.Sound) (ht : c.tables.get? i = some t) (n : UInt32)
    (q : PageId) :
    (c.pageOrGrow t n).2.stored? q = c.stored? q ∨
      c.stored? q = none ∧ (c.pageOrGrow t n).2.stored? q = some (zeros c.pageSize) := by
  unfold pageOrGrow
  split
  · exact .inl rfl
  · exact stored?_growTable hs ht q

theorem pageSize_pageOrGrow (c : Catalog) (t : HeapTable) (n : UInt32) :
    (c.pageOrGrow t n).2.pageSize = c.pageSize := by
  unfold pageOrGrow
  split
  · rfl
  · exact pageSize_growTable c t

theorem layout?_pageOrGrow (hs : c.Sound) (ht : c.tables.get? i = some t) (n : UInt32)
    (j : TableId) : (c.pageOrGrow t n).2.layout? j = c.layout? j := by
  unfold pageOrGrow
  split
  · rfl
  · exact layout?_growTable hs ht j

theorem setFaults_eq_ok {faults : DeviceFaults} (h : c.setFaults i faults = .ok c') :
    ∃ t, c.tables.get? i = some t ∧
      c' = { c with tables := c.tables.insert i { t with faults } } := by
  unfold setFaults at h
  cases ht : c.table i with
  | error e => simp [ht, Except.map] at h
  | ok t =>
    rw [ht] at h
    exact ⟨t, table_eq_ok.1 ht, (Except.ok.inj h).symm⟩

theorem sound_setFaults {faults : DeviceFaults} (hs : c.Sound)
    (h : c.setFaults i faults = .ok c') : c'.Sound := by
  obtain ⟨t, ht, rfl⟩ := setFaults_eq_ok h
  have hfits := hs.fits ht
  exact hs.insert ht rfl rfl rfl rfl hfits

theorem stored?_setFaults {faults : DeviceFaults} (h : c.setFaults i faults = .ok c') (q : PageId) :
    c'.stored? q = c.stored? q := by
  obtain ⟨t, ht, rfl⟩ := setFaults_eq_ok h
  unfold stored?
  by_cases hq : q.table = i
  · simp only [OrdMap.get?_insert, hq, if_true, ht]
    rfl
  · simp only [OrdMap.get?_insert, hq, if_false]

theorem layout?_setFaults {faults : DeviceFaults} (h : c.setFaults i faults = .ok c')
    (j : TableId) : c'.layout? j = c.layout? j := by
  obtain ⟨t, ht, rfl⟩ := setFaults_eq_ok h
  unfold layout?
  rw [OrdMap.get?_insert]
  split
  · subst j
    rw [ht]
    rfl
  · rfl

end Catalog

end PagePool
