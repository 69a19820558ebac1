import PagePool.Proofs.Pool.Backing
import PagePool.Proofs.Pool.Newest

namespace PagePool

/-- The order of record ids within one table: by page, then by slot. -/
def RecordId.Before (a b : RecordId) : Prop :=
  a.page.pageNo < b.page.pageNo ∨ a.page.pageNo = b.page.pageNo ∧ a.slot < b.slot

namespace TableId

theorem pairwise_pages (i : TableId) {n : Nat} (hn : n ≤ UInt32.size) :
    (i.pages n).Pairwise fun q r => q.pageNo < r.pageNo := by
  rw [pages, List.pairwise_map]
  refine List.pairwise_lt_range.imp_of_mem fun {k j} hk hj hlt => ?_
  rw [List.mem_range] at hk hj
  rw [UInt32.lt_iff_toNat_lt, toNat_ofNat_page hk hn, toNat_ofNat_page hj hn]
  exact hlt

end TableId

namespace Layout

variable {l : Layout} {size : Nat} {data : Bytes} {q : PageId} {r : RecordId} {d : Bytes}

theorem pairwise_tuples (h : forPage size l.tupleSize = .ok l) (q : PageId) (data : Bytes) :
    (l.tuples q data).Pairwise fun x y => x.1.slot < y.1.slot := by
  rw [tuples, List.pairwise_map]
  have hslots : (l.usedSlots data).Pairwise (· < ·) := List.pairwise_lt_range.filter _
  refine hslots.imp_of_mem fun {j k} hj hk hlt => ?_
  have hj := toNat_ofNat_slot h (lt_slots_of_isUsed (mem_usedSlots.1 hj))
  have hk := toNat_ofNat_slot h (lt_slots_of_isUsed (mem_usedSlots.1 hk))
  rw [UInt16.lt_iff_toNat_lt, hj, hk]
  exact hlt

/-- A page lists a tuple for each slot that is used. -/
theorem mem_tuples_iff (h : forPage size l.tupleSize = .ok l) :
    (r, d) ∈ l.tuples q data ↔ r.page = q ∧ l.tuple? data r.slot.toNat = some d := by
  rw [tuple?_eq_some]
  constructor
  · intro hmem
    obtain ⟨slot, hused, heq⟩ := mem_tuples hmem
    obtain ⟨rfl, rfl⟩ := Prod.mk.inj heq
    rw [toNat_ofNat_slot h (lt_slots_of_isUsed hused)]
    exact ⟨rfl, hused, rfl⟩
  · rintro ⟨rfl, hused, rfl⟩
    refine List.mem_map.2 ⟨r.slot.toNat, mem_usedSlots.2 hused, ?_⟩
    rw [UInt16.ofNat_toNat]

end Layout

theorem Catalog.Sound.forPage_eq {c : Catalog} {i : TableId} {layout : Layout} (hs : c.Sound)
    (h : c.layout? i = some layout) : Layout.forPage c.pageSize layout.tupleSize = .ok layout := by
  obtain ⟨heap, hheap, rfl⟩ := Option.map_eq_some_iff.1 h
  exact hs.layout_eq hheap

namespace Pool

/-- The tuple that a record id names, on the newest version of its page. -/
def tupleAt? (p : Pool) (r : RecordId) : Option Bytes :=
  match p.catalog.layout? r.page.table, p.newest? r.page with
  | some layout, some d => layout.tuple? d r.slot.toNat
  | _, _ => none

/-- The record ids that the pages of a table have slots for. -/
def HasSlot (p : Pool) (i : TableId) (layout : Layout) (r : RecordId) : Prop :=
  r.page ∈ p.catalog.pagesOf i ∧ r.slot.toNat < layout.slots

/-- Of the tuples this one has come or gone, and other pages are as they were: the store has what it
had, and `added` zero pages more for one table. -/
structure Edits (p p' : Pool) (i : TableId) (added : Nat) (r : RecordId) (x : Option Bytes) :
    Prop where
  tuples_eq : p'.tupleAt? = Function.update p.tupleAt? r x
  visible_eq : ∀ q, q ≠ r.page → p'.visible? q = p.visible? q
  pageCount_eq : ∀ j, p'.catalog.pageCount j = p.catalog.pageCount j + if j = i then added else 0
  stored_eq : ∀ q d, p.catalog.stored? q = some d → p'.catalog.stored? q = some d
  journal_eq : p'.journal = p.journal

variable {p p' : Pool} {q : PageId} {r : RecordId} {d : Bytes} {i : TableId} {layout : Layout}
  {page edited : Page} {t : TransactionId} {grown : Option TableId}

theorem newest?_eq (p : Pool) (q : PageId) : p.newest? q = (p.visible? q).map Page.data := by
  unfold newest? visible?
  cases p.pages.get? q with
  | some page => rfl
  | none => cases p.catalog.stored? q <;> rfl

theorem tupleAt?_eq (hlayout : p.catalog.layout? r.page.table = some layout)
    (hd : p.newest? r.page = some d) : p.tupleAt? r = layout.tuple? d r.slot.toNat := by
  simp only [tupleAt?, hlayout, hd]

theorem tupleAt?_of_none (hnone : p.newest? r.page = none) : p.tupleAt? r = none := by
  simp only [tupleAt?, hnone]
  split <;> simp_all

theorem tupleAt?_congr (hlayout : p'.catalog.layout? = p.catalog.layout?)
    (hnewest : p'.newest? r.page = p.newest? r.page) : p'.tupleAt? r = p.tupleAt? r := by
  simp only [tupleAt?, hlayout, hnewest]

theorem tupleAt?_eq_some (h : p.tupleAt? r = some d) :
    ∃ layout data, p.catalog.layout? r.page.table = some layout ∧
      p.newest? r.page = some data ∧ layout.tuple? data r.slot.toNat = some d := by
  unfold tupleAt? at h
  split at h
  · rename_i layout data hlayout hdata
    exact ⟨layout, data, hlayout, hdata, h⟩
  · contradiction

namespace SameContents

theorem newest?_eq (h : SameContents grown p p') (q : PageId) :
    p'.newest? q = p.newest? q ∨ some q.table = grown ∧ p.newest? q = none ∧
      p'.newest? q = some (Bytes.zeros p.catalog.pageSize) := by
  rw [Pool.newest?_eq, Pool.newest?_eq]
  rcases h.visible_eq q with hsame | ⟨hgrown, hnone, hzeros⟩
  · exact .inl (by rw [hsame])
  · exact .inr ⟨hgrown, by rw [hnone]; rfl, by rw [hzeros]; rfl⟩

/-- A zero page has no tuples. -/
theorem tupleAt?_eq (h : SameContents grown p p')
    (hlayout : p'.catalog.layout? = p.catalog.layout?) : p'.tupleAt? = p.tupleAt? := by
  funext r
  rcases h.newest?_eq r.page with hsame | ⟨-, hnone, hzeros⟩
  · exact tupleAt?_congr hlayout hsame
  · rw [tupleAt?_of_none hnone]
    cases hl : p'.catalog.layout? r.page.table with
    | none => simp only [tupleAt?, hl]
    | some layout =>
      rw [Pool.tupleAt?_eq hl hzeros, Layout.tuple?_eq_none]
      exact Layout.isUsed_zeros _ _ _

theorem tuplesOf_eq (h : SameContents none p p')
    (hlayout : p'.catalog.layout? = p.catalog.layout?) : p'.tuplesOf = p.tuplesOf := by
  funext q
  have hnewest : p'.newest? q = p.newest? q := (h.newest?_eq q).resolve_right nofun
  simp only [tuplesOf, hlayout, hnewest]

end SameContents

namespace Backed

theorem stored_of_newest? (h : p.Backed) (hd : p.newest? q = some d) :
    (p.catalog.stored? q).isSome = true := by
  rw [newest?_eq] at hd
  obtain ⟨page, hv, -⟩ := Option.map_eq_some_iff.1 hd
  exact h.isSome_stored? hv

theorem mem_tableTuples (h : p.Backed) :
    (r, d) ∈ p.tableTuples i ↔ r.page.table = i ∧ p.tupleAt? r = some d := by
  rw [tableTuples, List.mem_flatMap]
  constructor
  · rintro ⟨q, hq, hmem⟩
    obtain ⟨layout, data, hlayout, hdata⟩ :
        ∃ layout data, p.catalog.layout? q.table = some layout ∧ p.newest? q = some data := by
      obtain ⟨-, layout, data, -, hlayout, hdata, -⟩ := mem_tuplesOf hmem
      exact ⟨layout, data, hlayout, hdata⟩
    rw [tuplesOf_eq hlayout hdata] at hmem
    obtain ⟨rfl, htuple⟩ :=
      (Layout.mem_tuples_iff (h.intact.catalog.forPage_eq hlayout)).1 hmem
    exact ⟨(Catalog.mem_pagesOf.1 hq).1, (tupleAt?_eq hlayout hdata).trans htuple⟩
  · rintro ⟨rfl, htuple⟩
    obtain ⟨layout, data, hlayout, hdata, hd⟩ := tupleAt?_eq_some htuple
    refine ⟨r.page, ?_, ?_⟩
    · exact Catalog.mem_pagesOf.2 ⟨rfl, Catalog.isSome_stored?.1 (h.stored_of_newest? hdata)⟩
    · rw [tuplesOf_eq hlayout hdata]
      exact (Layout.mem_tuples_iff (h.intact.catalog.forPage_eq hlayout)).2 ⟨rfl, hd⟩

theorem pairwise_tableTuples (h : p.Backed) (i : TableId) :
    (p.tableTuples i).Pairwise fun x y => x.1.Before y.1 := by
  have hpage {q : PageId} {x : StoredTuple} (hx : x ∈ p.tuplesOf q) : x.1.page = q :=
    (mem_tuplesOf hx).1
  rw [tableTuples, List.pairwise_flatMap]
  constructor
  · intro q _
    unfold tuplesOf
    split
    · rename_i layout data hlayout _
      have hslots := Layout.pairwise_tuples (h.intact.catalog.forPage_eq hlayout) q data
      refine hslots.imp_of_mem fun {x y} hx hy hlt => .inr ⟨?_, hlt⟩
      obtain ⟨j, -, rfl⟩ := Layout.mem_tuples hx
      obtain ⟨k, -, rfl⟩ := Layout.mem_tuples hy
      rfl
    · exact .nil
  · have hpages := TableId.pairwise_pages i (Nat.le_of_lt (p.catalog.pageCount_lt i))
    refine hpages.imp fun hlt x hx y hy => .inl ?_
    rwa [hpage hx, hpage hy]

end Backed

/-- The tuples of the changed page are those on its new bytes. -/
theorem tupleAt?_addDirty (hlayout : p.catalog.layout? edited.id.table = some layout)
    (r : RecordId) : (p.addDirty t edited).tupleAt? r =
      if r.page = edited.id then layout.tuple? edited.data r.slot.toNat else p.tupleAt? r := by
  have hget (q : PageId) : (p.addDirty t edited).pages.get? q =
      if q = edited.id then some (edited.markDirty t) else p.pages.get? q :=
    OrdMap.get?_insert _ _ _ _
  split
  · rename_i hr
    refine tupleAt?_eq (hr ▸ hlayout) ?_
    simp only [newest?, hr, hget, if_true]
    rfl
  · rename_i hr
    refine tupleAt?_congr rfl ?_
    simp only [newest?, hget, if_neg hr]
    rfl

/-- One slot of a cached page is given other contents, and the page is put back as changed. -/
theorem edits_addDirty {k : Pool} {added : Nat} {x : Option Bytes}
    (h : SameContents (some i) p k) (hlayout : k.catalog.layout? = p.catalog.layout?)
    (hvisible : ∀ q, q ≠ r.page → k.visible? q = p.visible? q)
    (hcount : ∀ j, k.catalog.pageCount j = p.catalog.pageCount j + if j = i then added else 0)
    (hq : k.pages.get? r.page = some page) (hl : p.catalog.layout? r.page.table = some layout)
    (hid : edited.id = r.page)
    (hdata : ∀ j, layout.tuple? edited.data j =
      if j = r.slot.toNat then x else layout.tuple? page.data j) (t : TransactionId) :
    Edits p (k.addDirty t edited) i added r x := by
  have hl' : k.catalog.layout? r.page.table = some layout := by rw [hlayout, hl]
  refine ⟨funext fun r' => ?_, fun q hne => ?_, hcount, fun q d => h.stored_of_some, h.journal_eq⟩
  · have hold : k.tupleAt? r' = p.tupleAt? r' := congrFun (h.tupleAt?_eq hlayout) r'
    rw [tupleAt?_addDirty (by rw [hid]; exact hl'), Function.update_apply, hid, ← hold]
    by_cases hpage : r'.page = r.page
    · have hnewest : k.newest? r'.page = some page.data := by simp only [newest?, hpage, hq]
      rw [if_pos hpage, hdata, tupleAt?_eq (hpage ▸ hl') hnewest]
      have hslot : r'.slot.toNat = r.slot.toNat ↔ r' = r := by
        rw [UInt16.toNat_inj]
        refine ⟨fun hslot => ?_, fun he => by rw [he]⟩
        cases r
        cases r'
        simp_all
      simp only [hslot]
    · rw [if_neg hpage, if_neg fun he => hpage (by rw [he])]
  · rw [← hvisible q hne]
    refine visible?_congr ?_ rfl
    refine (OrdMap.get?_insert _ _ _ _).trans (if_neg ?_)
    rwa [hid]

end Pool

end PagePool
