import PagePool.Proofs.Heap.Slots
import PagePool.Proofs.Store.Stored

namespace PagePool

variable {fs : Files} {name : String} {pageSize tupleSize : Nat} {i : TableId} {t u : HeapTable}
  {f : PageFile}

namespace PageFile

theorem openExisting_of_isSome (h : (fs.get? name).isSome = true) (hsize : pageSize ≠ 0) :
    openExisting fs name pageSize =
      .ok ⟨name, pageSize, UInt32.ofNat ((fs.bytes name).length / pageSize)⟩ := by
  obtain ⟨bytes, hg⟩ := Option.isSome_iff_exists.1 h
  simp only [openExisting, Files.bytes, hg, if_neg hsize]
  rfl

theorem openExisting_eq_ok (h : openExisting fs name pageSize = .ok f) :
    (fs.get? name).isSome = true ∧
      f = ⟨name, pageSize, UInt32.ofNat ((fs.bytes name).length / pageSize)⟩ := by
  unfold openExisting at h
  cases hg : fs.get? name with
  | none => simp [hg] at h
  | some bytes =>
    rw [hg] at h
    simp only at h
    split at h
    · contradiction
    · rw [← Except.ok.inj h, Files.bytes, hg]
      exact ⟨rfl, rfl⟩

/-- A file that is opened is as long as its page count says, or longer. -/
theorem fits_openExisting (h : openExisting fs name pageSize = .ok f) : f.Fits fs := by
  obtain ⟨-, rfl⟩ := openExisting_eq_ok h
  simp only [Fits, size, offset, UInt32.toNat_ofNat']
  calc (fs.bytes name).length / pageSize % 2 ^ 32 * pageSize
      ≤ (fs.bytes name).length / pageSize * pageSize :=
        Nat.mul_le_mul_right pageSize (Nat.mod_le _ _)
    _ ≤ (fs.bytes name).length := Nat.div_mul_le_self _ _

end PageFile

/-- A table as it is when its file has just been opened. -/
structure HeapTable.Opened (fs : Files) (pageSize : Nat) (t : HeapTable) : Prop where
  layout_eq : Layout.forPage pageSize t.layout.tupleSize = .ok t.layout
  isSome_file : (fs.get? t.file.name).isSome = true
  file_eq : t.file =
    ⟨t.file.name, pageSize, UInt32.ofNat ((fs.bytes t.file.name).length / pageSize)⟩
  fits : t.file.Fits fs
  faults_eq : t.faults = .none

theorem HeapTable.openExisting_eq_ok
    (h : HeapTable.openExisting fs i name pageSize tupleSize = .ok t) :
    t.id = i ∧ t.file.name = name ∧ t.Opened fs pageSize := by
  unfold openExisting at h
  cases hl : Layout.forPage pageSize tupleSize with
  | error e => simp [hl] at h
  | ok layout =>
    cases hf : PageFile.openExisting fs name pageSize with
    | error e => simp [hl, hf, Except.map] at h
    | ok file =>
      rw [hl] at h
      simp only [hf] at h
      obtain rfl := Except.ok.inj h
      obtain ⟨hisSome, hfile⟩ := PageFile.openExisting_eq_ok hf
      obtain rfl : file.name = name := by rw [hfile]
      refine ⟨rfl, rfl, ?_, hisSome, hfile, PageFile.fits_openExisting hf, rfl⟩
      rw [(Layout.forPage_eq_ok hl).1]
      exact hl

/-- A table on a new file is as if it had just been opened. -/
theorem HeapTable.create_eq_ok {files : Files}
    (h : HeapTable.create fs i name pageSize tupleSize = .ok (t, files)) :
    fs.get? name = none ∧ files = fs.put name [] ∧ t.id = i ∧ t.file.name = name ∧
      t.Opened files pageSize := by
  unfold create at h
  cases hl : Layout.forPage pageSize tupleSize with
  | error e => simp [hl] at h
  | ok layout =>
    rw [hl] at h
    simp only [PageFile.create] at h
    cases hg : fs.get? name with
    | some bytes => simp [hg, Except.map] at h
    | none =>
      simp only [hg, Except.map, Except.ok.injEq, Prod.mk.injEq] at h
      obtain ⟨rfl, rfl⟩ := h
      have hempty : (fs.put name []).bytes name = [] := by
        rw [Files.bytes, Files.get?_put_self]
        rfl
      refine ⟨rfl, rfl, rfl, rfl, ?_, ?_, ?_, ?_, rfl⟩
      · rw [(Layout.forPage_eq_ok hl).1]
        exact hl
      · rw [Files.get?_put_self]
        rfl
      · simp only [hempty, List.length_nil, Nat.zero_div]
        rfl
      · simp [PageFile.Fits, PageFile.size, PageFile.offset]

/-- A table that has been opened can be opened again. -/
theorem HeapTable.exists_openExisting
    (hlayout : Layout.forPage pageSize t.layout.tupleSize = .ok t.layout)
    (hfile : (fs.get? t.file.name).isSome = true) (i : TableId) :
    ∃ u, HeapTable.openExisting fs i t.file.name pageSize t.layout.tupleSize = .ok u := by
  simp only [openExisting, hlayout,
    PageFile.openExisting_of_isSome hfile (Layout.forPage_eq_ok hlayout).2]
  exact ⟨_, rfl⟩

/-- How to open a table again under its id. -/
def HeapTable.spec (t : HeapTable) : TableSpec := ⟨t.file.name, t.layout.tupleSize, some t.id⟩

namespace Catalog

def specs (c : Catalog) : List TableSpec := c.tables.values.map HeapTable.spec

variable {c c' : Catalog} {s : TableSpec} {specs : List TableSpec} {ids : List TableId}

theorem openSpec_eq_ok (h : c.openSpec s = (.ok i, c')) :
    ∃ t nextId, t.id = i ∧ t.file.name = s.file ∧ t.Opened c.files c.pageSize ∧
      c' = { c with tables := c.tables.insert t.id t, nextId } := by
  unfold openSpec at h
  cases hid : s.id? with
  | none =>
    rw [hid] at h
    simp only [openTable, takeId] at h
    cases ho : HeapTable.openExisting c.files ⟨c.nextId⟩ s.file c.pageSize s.tupleSize with
    | error e => simp [ho] at h
    | ok t =>
      simp only [ho, Prod.mk.injEq] at h
      obtain ⟨hi, rfl⟩ := h
      obtain ⟨ht, hname, hopened⟩ := HeapTable.openExisting_eq_ok ho
      exact ⟨t, _, ht.trans (Except.ok.inj hi), hname, hopened, rfl⟩
  | some id =>
    rw [hid] at h
    simp only [openTableAs] at h
    cases ho : HeapTable.openExisting c.files id s.file c.pageSize s.tupleSize with
    | error e => simp [ho, Except.map] at h
    | ok t =>
      simp only [ho, Except.map, Prod.mk.injEq] at h
      obtain ⟨hi, rfl⟩ := h
      obtain ⟨ht, hname, hopened⟩ := HeapTable.openExisting_eq_ok ho
      exact ⟨t, _, ht.trans (Except.ok.inj hi), hname, hopened, rfl⟩

/-- What opening tables leaves: the files as they were, and freshly opened tables under their ids
beside those that stood there before. -/
theorem openAll_eq_ok (h : c.openAll specs = .ok (ids, c')) :
    c'.files = c.files ∧ c'.pageSize = c.pageSize ∧
      ∀ {i u}, c'.tables.get? i = some u →
        c.tables.get? i = some u ∨
          u.id = i ∧ u.Opened c.files c.pageSize ∧ u.file.name ∈ specs.map TableSpec.file := by
  induction specs generalizing c ids with
  | nil =>
    obtain ⟨-, rfl⟩ := Prod.mk.inj (Except.ok.inj h)
    exact ⟨rfl, rfl, .inl⟩
  | cons s specs ih =>
    unfold openAll at h
    rcases ho : c.openSpec s with ⟨found, c₁⟩
    rw [ho] at h
    cases found with
    | error e => contradiction
    | ok id =>
      obtain ⟨t, nextId, -, hname, hopened, rfl⟩ := openSpec_eq_ok ho
      simp only at h
      cases hrest : openAll { c with tables := c.tables.insert t.id t, nextId } specs with
      | error e => simp [hrest, Except.map] at h
      | ok r =>
        rw [hrest] at h
        obtain ⟨-, rfl⟩ := Prod.mk.inj (Except.ok.inj h)
        obtain ⟨hfiles, hsize, htables⟩ := ih hrest
        refine ⟨hfiles, hsize, ?_⟩
        intro i u hu
        rcases htables hu with hold | ⟨hid, hnew, hmem⟩
        · rw [OrdMap.get?_insert] at hold
          split at hold
          · rename_i hi
            obtain rfl := Option.some.inj hold
            rw [hname]
            exact .inr ⟨hi.symm, hopened, List.mem_cons_self⟩
          · exact .inl hold
        · exact .inr ⟨hid, hnew, List.mem_cons_of_mem _ hmem⟩

/-- A table on a file that no other table has keeps a catalog sound. -/
theorem Sound.insert_opened (hs : c.Sound) (hopened : t.Opened c.files c.pageSize)
    (hnew : ∀ {i u}, c.tables.get? i = some u → u.file.name ≠ t.file.name) (nextId : UInt32) :
    { c with tables := c.tables.insert t.id t, nextId }.Sound := by
  have hcases {j : TableId} {v : HeapTable} (hv : (c.tables.insert t.id t).get? j = some v) :
      j = t.id ∧ v = t ∨ c.tables.get? j = some v := by
    rw [OrdMap.get?_insert] at hv
    split at hv
    · exact .inl ⟨‹_›, (Option.some.inj hv).symm⟩
    · exact .inr hv
  constructor
  · intro j v hv
    rcases hcases hv with ⟨rfl, rfl⟩ | hv
    · rfl
    · exact hs.id_eq hv
  · intro j v hv
    rcases hcases hv with ⟨rfl, rfl⟩ | hv
    · exact hopened.layout_eq
    · exact hs.layout_eq hv
  · intro j v hv
    rcases hcases hv with ⟨rfl, rfl⟩ | hv
    · exact hopened.isSome_file
    · exact hs.isSome_file hv
  · intro j v hv
    rcases hcases hv with ⟨rfl, rfl⟩ | hv
    · rw [hopened.file_eq]
    · exact hs.pageSize_eq hv
  · intro j v hv
    rcases hcases hv with ⟨rfl, rfl⟩ | hv
    · exact hopened.fits
    · exact hs.fits hv
  · intro j k v w hv hw hname
    rcases hcases hv with ⟨hj, rfl⟩ | hv'
    · rcases hcases hw with ⟨hk, -⟩ | hw'
      · exact hj.trans hk.symm
      · exact absurd hname.symm (hnew hw')
    · rcases hcases hw with ⟨-, rfl⟩ | hw'
      · exact absurd hname (hnew hv')
      · exact hs.eq_of_name hv' hw' hname

theorem Sound.openAll (hs : c.Sound) (hdistinct : (specs.map TableSpec.file).Nodup)
    (hnew : ∀ {i u}, c.tables.get? i = some u → u.file.name ∉ specs.map TableSpec.file)
    (h : c.openAll specs = .ok (ids, c')) : c'.Sound := by
  induction specs generalizing c ids with
  | nil =>
    obtain ⟨-, rfl⟩ := Prod.mk.inj (Except.ok.inj h)
    exact hs
  | cons s specs ih =>
    rw [List.map_cons, List.nodup_cons] at hdistinct
    unfold Catalog.openAll at h
    rcases ho : c.openSpec s with ⟨found, c₁⟩
    rw [ho] at h
    cases found with
    | error e => contradiction
    | ok id =>
      obtain ⟨t, nextId, -, hname, hopened, rfl⟩ := openSpec_eq_ok ho
      have hold {i : TableId} {u : HeapTable} (hu : c.tables.get? i = some u) :
          u.file.name ≠ s.file ∧ u.file.name ∉ specs.map TableSpec.file :=
        not_or.1 fun hmem => hnew hu (List.mem_cons.2 hmem)
      simp only at h
      cases hrest : Catalog.openAll { c with tables := c.tables.insert t.id t, nextId } specs with
      | error e => simp [hrest, Except.map] at h
      | ok r =>
        rw [hrest] at h
        obtain ⟨-, rfl⟩ := Prod.mk.inj (Except.ok.inj h)
        -- the names still to come stay clear of the tables that are open
        refine ih (hs.insert_opened hopened (fun hu => hname ▸ (hold hu).1) nextId) hdistinct.2 ?_
          hrest
        intro i u hu
        simp only [OrdMap.get?_insert] at hu
        split at hu
        · rw [← Option.some.inj hu, hname]
          exact hdistinct.1
        · exact (hold hu).2

/-- A table that is created keeps a catalog sound: its file was not there before. -/
theorem Sound.createTable (hs : c.Sound) (name : String) (tupleSize : Nat) :
    (c.createTable name tupleSize).2.Sound := by
  simp only [Catalog.createTable, takeId]
  cases hc : HeapTable.create c.files ⟨c.nextId⟩ name c.pageSize tupleSize with
  | error e =>
    exact ⟨hs.id_eq, hs.layout_eq, hs.isSome_file, hs.pageSize_eq, hs.fits, hs.eq_of_name⟩
  | ok r =>
    obtain ⟨t, files⟩ := r
    obtain ⟨hnone, rfl, -, hname, hopened⟩ := HeapTable.create_eq_ok hc
    have hnew {i : TableId} {u : HeapTable} (hu : c.tables.get? i = some u) :
        u.file.name ≠ name := by
      intro he
      have hisSome := hs.isSome_file hu
      rw [he, hnone] at hisSome
      contradiction
    have hfiles : { c with files := c.files.put name [] }.Sound := by
      refine ⟨hs.id_eq, hs.layout_eq, fun hu => Files.isSome_get?_put (hs.isSome_file hu),
        hs.pageSize_eq, ?_, hs.eq_of_name⟩
      intro i u hu
      have hfits := hs.fits hu
      rwa [PageFile.Fits, ← PageFile.bytes_put_of_ne _ (hnew hu)] at hfits
    exact hfiles.insert_opened hopened (fun hu => hname ▸ hnew hu) _

theorem sound_empty (pageSize : Nat) (files : Files) : (Catalog.empty pageSize files).Sound :=
  ⟨nofun, nofun, nofun, nofun, nofun, nofun⟩

/-- Tables that are opened on distinct files make a sound catalog. -/
theorem sound_of_openAll {files : Files} (hdistinct : (specs.map TableSpec.file).Nodup)
    (h : (Catalog.empty pageSize files).openAll specs = .ok (ids, c)) : c.Sound :=
  (sound_empty pageSize files).openAll hdistinct nofun h

theorem exists_openAll {ts : List HeapTable} (hnodup : (ts.map HeapTable.id).Nodup)
    (hlayout : ∀ t ∈ ts, Layout.forPage c.pageSize t.layout.tupleSize = .ok t.layout)
    (hfile : ∀ t ∈ ts, (c.files.get? t.file.name).isSome = true) :
    ∃ ids c', c.openAll (ts.map HeapTable.spec) = .ok (ids, c') ∧
      (∀ i, i ∉ ts.map HeapTable.id → c'.tables.get? i = c.tables.get? i) ∧
      ∀ t ∈ ts, ∃ u, c'.tables.get? t.id = some u ∧ u.file.name = t.file.name := by
  induction ts generalizing c with
  | nil => exact ⟨[], c, rfl, fun _ _ => rfl, nofun⟩
  | cons t ts ih =>
    rw [List.map_cons, List.nodup_cons] at hnodup
    obtain ⟨u, hu⟩ := HeapTable.exists_openExisting (hlayout t List.mem_cons_self)
      (hfile t List.mem_cons_self) t.id
    obtain ⟨hid, hname, -⟩ := HeapTable.openExisting_eq_ok hu
    have hstep : c.openSpec t.spec = (.ok t.id, c.add u) := by
      simp only [openSpec, HeapTable.spec, openTableAs, hu, Except.map]
    obtain ⟨ids, c', hrest, hkept, hopened⟩ := ih (c := c.add u) hnodup.2
      (fun v hv => hlayout v (List.mem_cons_of_mem _ hv))
      (fun v hv => hfile v (List.mem_cons_of_mem _ hv))
    refine ⟨t.id :: ids, c', ?_, ?_, ?_⟩
    · simp only [List.map_cons, openAll, hstep, hrest, Except.map]
    · intro i hi
      rw [List.map_cons, List.mem_cons, not_or] at hi
      rw [hkept i hi.2, add, OrdMap.get?_insert, hid, if_neg hi.1]
    · intro v hv
      rcases List.mem_cons.1 hv with rfl | hv
      · refine ⟨u, ?_, hname⟩
        rw [hkept v.id hnodup.1, add, OrdMap.get?_insert, hid, if_pos rfl]
      · exact hopened v hv

/-- All the tables of a sound catalog can be opened again, each under its id and on its file. -/
theorem Sound.exists_openAll_specs (hs : c.Sound) :
    ∃ ids c', (Catalog.empty c.pageSize c.files).openAll c.specs = .ok (ids, c') ∧
      ∀ {i t}, c.tables.get? i = some t →
        ∃ u, c'.tables.get? i = some u ∧ u.file.name = t.file.name := by
  have hnodup : (c.tables.values.map HeapTable.id).Nodup := by
    rw [OrdMap.map_values_eq_keys hs.id_eq]
    exact c.tables.nodup_keys
  obtain ⟨ids, c', hopen, -, htables⟩ :=
    exists_openAll (c := Catalog.empty c.pageSize c.files) hnodup
      (fun t ht => by
        obtain ⟨i, hi⟩ := OrdMap.mem_values.1 ht
        exact hs.layout_eq hi)
      (fun t ht => by
        obtain ⟨i, hi⟩ := OrdMap.mem_values.1 ht
        exact hs.isSome_file hi)
  refine ⟨ids, c', hopen, ?_⟩
  intro i t ht
  obtain ⟨u, hu, hname⟩ := htables t (OrdMap.mem_values.2 ⟨i, ht⟩)
  rw [hs.id_eq ht] at hu
  exact ⟨u, hu, hname⟩

/-- One table of one page, with room for one tuple of one byte. -/
def oneSlot : Catalog :=
  ⟨OrdMap.empty.insert ⟨1⟩ ⟨⟨1⟩, ⟨1, 1⟩, ⟨"t", 2, 1⟩, .none⟩, 2, 2, ⟨[("t", [0, 0])]⟩⟩

theorem openAll_oneSlot :
    (Catalog.empty 2 ⟨[("t", [0, 0])]⟩).openAll [⟨"t", 1, none⟩] = .ok ([⟨1⟩], oneSlot) := rfl

theorem sound_oneSlot : oneSlot.Sound := sound_of_openAll (by decide) openAll_oneSlot

/-- One table of one page with room for two tuples of one byte, whose second slot is used. -/
def halfFull : Catalog :=
  ⟨OrdMap.empty.insert ⟨1⟩ ⟨⟨1⟩, ⟨1, 2⟩, ⟨"t", 3, 1⟩, .none⟩, 2, 3, ⟨[("t", [2, 0, 8])]⟩⟩

theorem openAll_halfFull :
    (Catalog.empty 3 ⟨[("t", [2, 0, 8])]⟩).openAll [⟨"t", 1, none⟩] = .ok ([⟨1⟩], halfFull) := rfl

theorem sound_halfFull : halfFull.Sound := sound_of_openAll (by decide) openAll_halfFull

/-- One table, for one tuple of one byte on a page, that has no page yet. -/
def noPages : Catalog :=
  ⟨OrdMap.empty.insert ⟨1⟩ ⟨⟨1⟩, ⟨1, 1⟩, ⟨"t", 2, 0⟩, .none⟩, 2, 2, ⟨[("t", [])]⟩⟩

theorem openAll_noPages :
    (Catalog.empty 2 ⟨[("t", [])]⟩).openAll [⟨"t", 1, none⟩] = .ok ([⟨1⟩], noPages) := rfl

theorem sound_noPages : noPages.Sound := sound_of_openAll (by decide) openAll_noPages

end Catalog

end PagePool
