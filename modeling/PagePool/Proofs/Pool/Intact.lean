import PagePool.Proofs.Heap.Slots
import PagePool.Proofs.Pool.World

namespace PagePool

/-- Both images of the page have this many bytes. -/
def Page.Whole (p : Page) (size : Nat) : Prop := p.data.length = size ∧ p.before.length = size

/-- A waiting call that is not an edit of single bytes, and inserts tuples of its table's width. -/
def Call.Fits (layout? : TableId → Option Layout) (c : Call) : Prop :=
  match c.task with
  | .insert tuple _ _ =>
    ∀ layout, layout? c.request.page.table = some layout → tuple.length = layout.tupleSize
  | .edit _ _ _ => False
  | _ => True

namespace Pool

/-- What holds of a pool whatever its callers do: the store is sound, the cache and its bookkeeping
agree, cached pages have the size of stored ones, and who has changed a page is active. -/
structure Intact (p : Pool) : Prop where
  catalog : p.catalog.Sound
  resident : p.Resident
  whole : ∀ {q page}, p.pages.get? q = some page → page.Whole p.catalog.pageSize
  owner_active : ∀ {q page t}, p.pages.get? q = some page → page.dirtiedBy = some t →
    p.isActive t = true

/-- A step that logs nothing and leaves the tables their layouts. -/
structure Silent (p p' : Pool) : Prop where
  intact : p'.Intact
  journal_eq : p'.journal = p.journal
  layout_eq : p'.catalog.layout? = p.catalog.layout?
  size_eq : p'.catalog.pageSize = p.catalog.pageSize

/-- A step of a call is silent, and what it leaves to do fits. -/
def StepsSilently (p : Pool) (o : Progress × Pool) : Prop :=
  Silent p o.2 ∧ ∀ c, o.1 = .needs c → c.Fits p.catalog.layout?

variable {p p' : Pool} {q : PageId} {page stored : Page} {t : TransactionId} {catalog : Catalog}
  {heap : HeapTable} {result : Except Error Page}

theorem intact_make {capacity : Nat} {journal : Journal} (hs : catalog.Sound)
    (h : make capacity catalog journal = .ok p) : p.Intact := by
  have hresident := resident_make h
  obtain ⟨-, rfl⟩ := make_eq_ok h
  exact ⟨hs, hresident, nofun, nofun⟩

namespace Intact

/-- Cached pages may go, and whole pages may come whose owners are active. -/
theorem of_pages (h : p.Intact) (hcatalog : p'.catalog.Sound)
    (hsize : p'.catalog.pageSize = p.catalog.pageSize) (hresident : p'.Resident)
    (hactive : ∀ t, p.isActive t = true → p'.isActive t = true)
    (hpages : ∀ {q page}, p'.pages.get? q = some page → p.pages.get? q = some page ∨
      page.Whole p.catalog.pageSize ∧ ∀ t, page.dirtiedBy = some t → p'.isActive t = true) :
    p'.Intact := by
  refine ⟨hcatalog, hresident, fun hq => ?_, fun hq ht => ?_⟩
  · rw [hsize]
    exact (hpages hq).elim h.whole And.left
  · rcases hpages hq with hq | ⟨-, hnew⟩
    · exact hactive _ (h.owner_active hq ht)
    · exact hnew _ ht

/-- Intactness reads the cache, the catalog and the active transactions, nothing else. -/
theorem congr (h : p.Intact) (hpages : p'.pages = p.pages) (hrecency : p'.recency = p.recency)
    (hunsynced : p'.unsynced = p.unsynced) (hcatalog : p'.catalog = p.catalog)
    (hactive : ∀ t, p.isActive t = true → p'.isActive t = true) : p'.Intact := by
  refine h.of_pages (hcatalog ▸ h.catalog) (by rw [hcatalog])
    (h.resident.of_cache hpages hrecency hunsynced) hactive fun hq => .inl ?_
  rwa [hpages] at hq

/-- A whole page without an owner takes the place of one that was cached. -/
theorem settle {d : Bytes} (h : p.Intact) (hcatalog : p'.catalog.Sound)
    (hsize : p'.catalog.pageSize = p.catalog.pageSize) (hresident : p'.Resident)
    (hactive : p'.active = p.active) (hd : d.length = p.catalog.pageSize)
    (hpages : ∀ r, p'.pages.get? r = if r = q then some (.ofStored q d) else p.pages.get? r) :
    p'.Intact := by
  refine h.of_pages hcatalog hsize hresident (fun t ht => ?_) fun {r other} hr => ?_
  · rw [isActive, hactive]
    exact ht
  · rw [hpages] at hr
    split at hr
    · rw [← Option.some.inj hr]
      exact .inr ⟨⟨hd, hd⟩, fun _ ht => by cases ht⟩
    · exact .inl hr

end Intact

namespace Silent

theorem refl (h : p.Intact) : Silent p p := ⟨h, rfl, rfl, rfl⟩

theorem trans {p'' : Pool} (h : Silent p p') (h' : Silent p' p'') : Silent p p'' :=
  ⟨h'.intact, h'.journal_eq.trans h.journal_eq, h'.layout_eq.trans h.layout_eq,
    h'.size_eq.trans h.size_eq⟩

theorem of_catalog_eq (h : p'.Intact) (hcatalog : p'.catalog = p.catalog)
    (hjournal : p'.journal = p.journal) : Silent p p' :=
  ⟨h, hjournal, by rw [hcatalog], by rw [hcatalog]⟩

theorem locks (h : p.Intact) (locks : LockTable) : Silent p { p with locks } :=
  of_catalog_eq (h.congr rfl rfl rfl rfl fun _ => id) rfl rfl

theorem begin (h : p.Intact) : Silent p p.begin.2 :=
  of_catalog_eq (h.congr rfl rfl rfl rfl fun _ ht => OrdSet.mem_insert.2 (.inr ht)) rfl rfl

theorem erase (h : p.Intact) (hresident : p'.Resident) (hpages : p'.pages = p.pages.erase q)
    (hactive : p'.active = p.active) (hcatalog : p'.catalog = p.catalog)
    (hjournal : p'.journal = p.journal) : Silent p p' := by
  refine of_catalog_eq (h.of_pages (hcatalog ▸ h.catalog) (by rw [hcatalog]) hresident ?_ ?_)
    hcatalog hjournal
  · intro t ht
    rw [isActive, hactive]
    exact ht
  · intro r page hr
    rw [hpages, OrdMap.get?_erase] at hr
    split at hr
    · contradiction
    · exact .inl hr

theorem discard (h : p.Intact) (q : PageId) : Silent p (p.discard q) := by
  have hresident := h.resident.discard q
  unfold Pool.discard at hresident ⊢
  split
  · rename_i hq
    rw [if_pos hq] at hresident
    exact erase h hresident rfl rfl rfl rfl
  · exact refl h

theorem makeRoom (h : p.Intact) (he : p.makeRoom = .ok p') : Silent p p' := by
  have hresident := h.resident.makeRoom he
  rcases makeRoom_eq_ok he with rfl | he
  · exact refl h
  · obtain ⟨victim, -, rfl⟩ := evict_eq_ok he
    exact erase h hresident rfl rfl rfl rfl

/-- What is loaded from a sound store is whole. -/
theorem whole_of_readPage (hs : catalog.Sound) (hr : catalog.readPage q = .ok stored) :
    stored.Whole catalog.pageSize := by
  obtain ⟨d, hstored, rfl⟩ := Catalog.readPage_eq_ok hs hr
  obtain ⟨t, ht, hn, rfl⟩ := Catalog.stored?_eq_some.1 hstored
  have hlength := PageFile.length_pageBytes (hs.fits ht) hn
  rw [hs.pageSize_eq ht] at hlength
  exact ⟨hlength, hlength⟩

theorem addClean (h : p.Intact) (hq : p.isCached stored.id ≠ true)
    (hr : p.catalog.readPage q = .ok stored) : Silent p (p.addClean stored) := by
  have hwhole := whole_of_readPage h.catalog hr
  obtain ⟨d, rfl⟩ := Catalog.eq_ofStored_of_readPage hr
  exact of_catalog_eq (h.settle h.catalog rfl (h.resident.addClean hq rfl) rfl hwhole.1
    fun r => OrdMap.get?_insert _ _ _ _) rfl rfl

theorem read (h : p.Intact) (t : TransactionId) (q : PageId) : Silent p (p.read t q).2 := by
  have hactive : ∀ u, p.isActive u = true → (p.active.insert t).contains u = true := fun u hu =>
    OrdSet.mem_insert.2 (.inr hu)
  have hmiss : Silent p (p.afterMiss t) :=
    of_catalog_eq (h.congr rfl rfl rfl rfl hactive) rfl rfl
  rcases read_cases p t q with
    ⟨page, hq, hr⟩ | ⟨hq, ⟨e, hr⟩ | ⟨p', hroom, ⟨e, hr⟩ | ⟨stored, hs, hr⟩⟩⟩
  · have hresident := h.resident.read t q
    rw [hr] at hresident ⊢
    exact of_catalog_eq (h.of_pages h.catalog rfl hresident hactive .inl) rfl rfl
  · rwa [hr]
  · rw [hr]
    exact hmiss.trans (makeRoom hmiss.intact hroom)
  · rw [hr]
    have hmade := hmiss.trans (makeRoom hmiss.intact hroom)
    refine hmade.trans (addClean hmade.intact ?_ hs)
    obtain ⟨d, rfl⟩ := Catalog.eq_ofStored_of_readPage hs
    intro hcached
    obtain ⟨page, hpage⟩ := isCached_iff.1 (isCached_of_makeRoom hroom hcached)
    have habs : none = some page := hq.symm.trans hpage
    contradiction

theorem addDirty (h : p.Intact) (hwhole : page.Whole p.catalog.pageSize)
    (ht : p.isActive t = true) : Silent p (p.addDirty t page) := by
  refine of_catalog_eq (h.of_pages h.catalog rfl (h.resident.addDirty t page) (fun _ => id) ?_)
    rfl rfl
  intro r other hr
  have hr' : (p.pages.insert page.id (page.markDirty t)).get? r = some other := hr
  rw [OrdMap.get?_insert] at hr'
  split at hr'
  · obtain rfl := Option.some.inj hr'
    refine .inr ⟨hwhole, fun u hu => ?_⟩
    obtain rfl : t = u := Option.some.inj hu
    exact ht
  · exact .inl hr'

theorem isActive_makeRoom (he : p.makeRoom = .ok p') : p'.isActive t = p.isActive t := by
  rcases makeRoom_eq_ok he with rfl | he
  · rfl
  · obtain ⟨victim, -, rfl⟩ := evict_eq_ok he
    rfl

theorem install (h : p.Intact) (hwhole : page.Whole p.catalog.pageSize) (ht : p.isActive t = true)
    (hi : p.install t page = .ok p') : Silent p p' ∧ p'.isActive t = true := by
  unfold Pool.install at hi
  split at hi
  · unfold makeRoomFor at hi
    split at hi
    · obtain rfl := Except.ok.inj hi
      exact ⟨addDirty h hwhole ht, ht⟩
    · cases hroom : p.makeRoom with
      | error e => simp [hroom, Except.map] at hi
      | ok p₁ =>
        rw [hroom] at hi
        obtain rfl := Except.ok.inj hi
        have hmade := makeRoom h hroom
        have ht' : p₁.isActive t = true := (isActive_makeRoom hroom).trans ht
        exact ⟨hmade.trans (addDirty hmade.intact (hmade.size_eq ▸ hwhole) ht'), ht'⟩
  · contradiction

theorem installAll (h : p.Intact) {pages : List Page}
    (hwhole : ∀ page ∈ pages, page.Whole p.catalog.pageSize) (ht : p.isActive t = true) :
    Silent p (p.installAll t pages).2 := by
  induction pages generalizing p with
  | nil => exact refl h
  | cons page pages ih =>
    obtain ⟨hfirst, hrest⟩ := List.forall_mem_cons.1 hwhole
    unfold Pool.installAll
    cases hi : p.install t page with
    | error e => exact refl h
    | ok p' =>
      obtain ⟨hsilent, ht'⟩ := install h hfirst ht hi
      exact hsilent.trans (ih hsilent.intact (hsilent.size_eq ▸ hrest) ht')

end Silent

/-! A call's step is silent, and so is its start. -/

namespace StepsSilently

theorem ended (h : p.Silent p') (result : Except Error Answer) :
    StepsSilently p (.ended result, p') :=
  ⟨h, nofun⟩

theorem needs {c : Call} (h : p.Silent p') (hc : c.Fits p.catalog.layout?) :
    StepsSilently p (.needs c, p') :=
  ⟨h, fun _ hnext => (Progress.needs.inj hnext) ▸ hc⟩

theorem deliver (h : p.Intact) {edited : Page} (hwhole : edited.Whole p.catalog.pageSize)
    (ht : p.isActive t = true) (install : Bool) :
    StepsSilently p (p.deliver t install [edited]) := by
  unfold Pool.deliver
  split
  · refine ended (.installAll h ?_ ht) _
    intro page hpage
    rwa [List.mem_singleton.1 hpage]
  · exact ended (.refl h) _

theorem seekRoom (h : p.Intact) {table : TableId} {tuple : Bytes}
    (htuple : ∀ layout, p.catalog.layout? table = some layout → tuple.length = layout.tupleSize)
    (t : TransactionId) (pageNo : UInt32) (install : Bool) :
    StepsSilently p (p.seekRoom t table pageNo tuple install) := by
  unfold Pool.seekRoom
  cases ht : p.catalog.table table with
  | error e => exact ended (.refl h) _
  | ok heap =>
    have hget := Catalog.table_eq_ok.1 ht
    have hgrown : Silent p { p with catalog := (p.catalog.pageOrGrow heap pageNo).2 } := by
      refine ⟨?_, rfl, funext (Catalog.layout?_pageOrGrow h.catalog hget pageNo),
        Catalog.pageSize_pageOrGrow p.catalog heap pageNo⟩
      exact h.of_pages (Catalog.sound_pageOrGrow h.catalog hget pageNo)
        (Catalog.pageSize_pageOrGrow p.catalog heap pageNo) (h.resident.of_cache rfl rfl rfl)
        (fun _ => id) .inl
    simp only
    rcases hgrow : p.catalog.pageOrGrow heap pageNo with ⟨found, catalog⟩
    rw [hgrow] at hgrown
    cases found with
    | error e => exact ended hgrown _
    | ok n => exact needs hgrown htuple

theorem scanNext (h : p.Intact) (t : TransactionId) (pages : List PageId)
    (found : List StoredTuple) : StepsSilently p (p.scanNext t pages found) := by
  cases pages with
  | nil => exact ended (.refl h) _
  | cons q rest => exact needs (.refl h) trivial

theorem of_silent {o : Progress × Pool} (hfirst : p.Silent p') (h : StepsSilently p' o) :
    StepsSilently p o :=
  ⟨hfirst.trans h.1, fun c hc => hfirst.layout_eq ▸ h.2 c hc⟩

theorem continueOn {r : LockRequest} {task : Task} (h : p.Intact)
    (hq : p.pages.get? r.page = some page) (hactive : p.isActive r.tid = true)
    (hheap : p.catalog.table r.page.table = .ok heap)
    (hc : Call.Fits p.catalog.layout? ⟨r, task⟩) :
    StepsSilently p (p.continueOn r heap page task) := by
  have hwhole := h.whole hq
  have hlayout : Layout.forPage page.data.length heap.layout.tupleSize = .ok heap.layout := by
    rw [hwhole.1]
    exact h.catalog.layout_eq (Catalog.table_eq_ok.1 hheap)
  cases task with
  | fetch => exact ended (.refl h) _
  | insert tuple heldBefore install =>
    cases hplace : heap.place? page tuple with
    | some edited =>
      obtain ⟨data, rfl, hlength⟩ := HeapTable.place?_eq_some hplace
      have hdata := hlength hlayout (hc _ (layout?_of_table hheap))
      have hedited : ({ page with data } : Page).Whole p.catalog.pageSize :=
        ⟨hdata.trans hwhole.1, hwhole.2⟩
      simp only [Pool.continueOn, hplace]
      exact deliver h hedited hactive install
    | none =>
      simp only [Pool.continueOn, hplace]
      cases heldBefore with
      | true => exact seekRoom h hc _ _ _
      | false =>
        have hreleased : Silent p (p.releaseLock r.tid r.page) := .locks h _
        exact .of_silent hreleased (seekRoom hreleased.intact hc _ _ _)
  | delete slot install =>
    cases hremove : heap.remove? page slot with
    | some edited =>
      obtain ⟨data, rfl, hlength⟩ := HeapTable.remove?_eq_some hremove
      have hedited : ({ page with data } : Page).Whole p.catalog.pageSize :=
        ⟨(hlength hlayout).trans hwhole.1, hwhole.2⟩
      simp only [Pool.continueOn, hremove]
      exact deliver h hedited hactive install
    | none =>
      simp only [Pool.continueOn, hremove]
      exact ended (.refl h) _
  | scan rest found => exact scanNext h _ _ _
  | edit source edited writes => exact hc.elim

theorem resume {c : Call} (h : p.Intact) (hc : c.Fits p.catalog.layout?) :
    StepsSilently p (p.resume c) := by
  obtain ⟨r, task⟩ := c
  have hsource : task.source = .cache := by
    cases task with
    | edit source edited writes => exact hc.elim
    | _ => rfl
  unfold Pool.resume
  rcases hr : p.obtain r task.source with ⟨result, p₁⟩
  rw [hsource] at hr
  have hread : p.read r.tid r.page = (result, p₁) := hr
  have hsilent := Silent.read h r.tid r.page
  rw [hread] at hsilent
  simp only
  cases result with
  | error e => exact ended hsilent _
  | ok page =>
    obtain ⟨hq, hactive⟩ := read_eq_ok hread
    simp only
    cases hheap : p₁.catalog.table r.page.table with
    | error e => exact ended hsilent _
    | ok heap =>
      exact .of_silent hsilent
        (continueOn hsilent.intact hq hactive hheap (hsilent.layout_eq ▸ hc))

theorem start (h : p.Intact) (c : Command) : StepsSilently p (c.start p) := by
  cases c with
  | fetch t page access => exact needs (.refl h) trivial
  | insert t table tuple =>
    simp only [Command.start, startInsert]
    cases ht : p.catalog.table table with
    | error e => exact ended (.refl h) _
    | ok heap =>
      simp only
      split
      · rename_i htuple
        refine seekRoom h ?_ t 0 true
        intro layout hlayout
        rw [layout?_of_table ht] at hlayout
        rw [htuple, Option.some.inj hlayout]
      · exact ended (.refl h) _
  | delete t record? =>
    simp only [Command.start, startDelete]
    cases record? with
    | none => exact ended (.refl h) _
    | some record =>
      simp only [startDeleteFrom]
      cases ht : p.catalog.table record.page.table with
      | error e => exact ended (.refl h) _
      | ok heap =>
        simp only
        split
        · exact needs (.refl h) trivial
        · exact ended (.refl h) _
  | scan t table =>
    simp only [Command.start, startScan]
    cases ht : p.catalog.table table with
    | error e => exact ended (.refl h) _
    | ok heap => exact scanNext h _ _ _

end StepsSilently

/-- One lock request of a call is silent, and what it goes on as fits. -/
theorem silent_turn {c : Call} (h : p.Intact) (hc : c.Fits p.catalog.layout?) :
    Silent p (p.runCall 1 c).2 ∧
      ∀ c', (p.runCall 1 c).1 = .blocked c' → c'.Fits p.catalog.layout? := by
  rcases ha : p.locks.acquire c.request with ⟨attempt, locks⟩
  have hlocked : Silent p { p with locks } := .locks h locks
  cases attempt with
  | waits =>
    simp only [runCall, ha]
    exact ⟨hlocked, fun _ hnext => (Pass.blocked.inj hnext) ▸ hc⟩
  | deadlock =>
    simp only [runCall, ha]
    exact ⟨hlocked, fun _ hnext => by cases hnext⟩
  | granted =>
    have hgoes := StepsSilently.of_silent hlocked (StepsSilently.resume hlocked.intact (c := c) hc)
    simp only [runCall, ha]
    rcases hresume : ({ p with locks } : Pool).resume c with ⟨progress, p'⟩
    rw [hresume] at hgoes
    cases progress with
    | ended result => exact ⟨hgoes.1, fun _ hnext => by cases hnext⟩
    | needs c' => exact ⟨hgoes.1, fun _ hnext => (Pass.blocked.inj hnext) ▸ hgoes.2 c' rfl⟩

/-! Completions and flushes log, and put clean pages in place of changed ones. -/

/-- Clean pages have taken the places of the pages with these ids; the others are as they were. -/
structure Settles (qs : List PageId) (p p' : Pool) : Prop where
  silent : Silent p p'
  active_eq : p'.active = p.active
  isCached : ∀ {q}, p.isCached q = true → p'.isCached q = true
  get? : ∀ {q page}, p'.pages.get? q = some page →
    page.dirtiedBy = none ∨ q ∉ qs ∧ p.pages.get? q = some page

namespace Settles

theorem refl (h : p.Intact) : Settles [] p p :=
  ⟨.refl h, rfl, id, fun hq => .inr ⟨List.not_mem_nil, hq⟩⟩

theorem cons {p'' : Pool} {qs : List PageId} (h : Settles [q] p p') (h' : Settles qs p' p'') :
    Settles (q :: qs) p p'' := by
  refine ⟨h.silent.trans h'.silent, h'.active_eq.trans h.active_eq,
    fun hr => h'.isCached (h.isCached hr), fun {r page} hr => ?_⟩
  rcases h'.get? hr with hclean | ⟨hrest, hr⟩
  · exact .inl hclean
  · rcases h.get? hr with hclean | ⟨hfirst, hr⟩
    · exact .inl hclean
    · refine .inr ⟨?_, hr⟩
      rw [List.mem_cons]
      exact fun hmem => hmem.elim (fun he => hfirst (he ▸ List.mem_singleton_self _)) hrest

theorem of_get? {d : Bytes} (h : Silent p p') (hactive : p'.active = p.active)
    (hpages : ∀ r, p'.pages.get? r = if r = q then some (.ofStored q d) else p.pages.get? r) :
    Settles [q] p p' := by
  refine ⟨h, hactive, isCached_of_get? hpages, fun {r page} hr => ?_⟩
  rw [hpages] at hr
  split at hr
  · rw [← Option.some.inj hr]
    exact .inl rfl
  · rename_i hne
    exact .inr ⟨by simpa using hne, hr⟩

theorem writeCommitted (h : p.Intact) (hq : p.isCached page.id = true)
    (hwhole : page.Whole p.catalog.pageSize) : Settles [page.id] p (p.writeCommitted page).2 := by
  have hresident := h.resident.writeCommitted hq
  have hpages := get?_writeCommitted p page
  unfold Pool.writeCommitted at hresident hpages ⊢
  cases hw : p.catalog.writePage page with
  | ok catalog =>
    rw [hw] at hresident hpages
    obtain ⟨htables, hsize⟩ := Catalog.tables_writePage hw
    refine of_get? ⟨?_, rfl, World.layout?_of_tables htables, hsize⟩ rfl hpages
    exact h.settle (Catalog.sound_writePage h.catalog hw) hsize hresident rfl hwhole.1 hpages
  | error e =>
    rw [hw] at hresident hpages
    refine of_get? (.of_catalog_eq ?_ rfl rfl) rfl hpages
    exact h.settle h.catalog rfl hresident rfl hwhole.1 hpages

theorem rollBack (h : p.Intact) (hq : p.isCached page.id = true)
    (hwhole : page.Whole p.catalog.pageSize) : Settles [page.id] p (p.rollBack page).2 := by
  have hresident := h.resident.rollBack hq
  have hpages := get?_rollBack p page
  unfold Pool.rollBack at hresident hpages ⊢
  split at hresident
  · rename_i hm
    rw [if_pos hm] at hpages ⊢
    cases hw : p.catalog.writePage page.beforeImage with
    | ok catalog =>
      rw [hw] at hresident hpages
      obtain ⟨htables, hsize⟩ := Catalog.tables_writePage hw
      refine of_get? ⟨?_, rfl, World.layout?_of_tables htables, hsize⟩ rfl hpages
      exact h.settle (Catalog.sound_writePage h.catalog hw) hsize hresident rfl hwhole.2 hpages
    | error e =>
      rw [hw] at hresident hpages
      refine of_get? (.of_catalog_eq ?_ rfl rfl) rfl hpages
      exact h.settle h.catalog rfl hresident rfl hwhole.2 hpages
  · rename_i hm
    rw [if_neg hm] at hpages ⊢
    refine of_get? (.of_catalog_eq ?_ rfl rfl) rfl hpages
    exact h.settle h.catalog rfl hresident rfl hwhole.2 hpages

theorem forEachPage {handle : Pool → Page → Except Error Unit × Pool}
    (hstep : ∀ {p page}, p.Intact → p.isCached page.id = true → page.Whole p.catalog.pageSize →
      Settles [page.id] p (handle p page).2)
    (h : p.Intact) {pages : List Page}
    (hpages : ∀ page ∈ pages, p.isCached page.id = true ∧ page.Whole p.catalog.pageSize) :
    Settles (pages.map Page.id) p (forEachPage handle p pages).2 := by
  induction pages generalizing p with
  | nil => exact refl h
  | cons page pages ih =>
    obtain ⟨⟨hq, hwhole⟩, hrest⟩ := List.forall_mem_cons.1 hpages
    have hfirst := hstep h hq hwhole
    refine hfirst.cons (ih hfirst.silent.intact fun other hother => ?_)
    obtain ⟨hcached, hother⟩ := hrest other hother
    exact ⟨hfirst.isCached hcached, hfirst.silent.size_eq ▸ hother⟩

/-- The pages that a transaction has changed can all be handled. -/
theorem dirtiedBy {handle : Pool → Page → Except Error Unit × Pool}
    (hstep : ∀ {p page}, p.Intact → p.isCached page.id = true → page.Whole p.catalog.pageSize →
      Settles [page.id] p (handle p page).2) (h : p.Intact) (t : TransactionId) :
    Settles (p.dirtyPages t) p (Pool.forEachPage handle p (p.dirtiedBy t)).2 := by
  refine forEachPage hstep h fun page hpage => ?_
  obtain ⟨hq, -⟩ := (mem_dirtiedBy h.resident).1 hpage
  exact ⟨isCached_iff.2 ⟨page, hq⟩, h.whole hq⟩

end Settles

/-- A transaction whose changed pages have been settled may stop being active. -/
theorem Intact.finish (h : p.Intact) (hsettles : Settles (p.dirtyPages t) p p') :
    ((p'.deactivate t).releaseAll t).Intact := by
  have hintact := hsettles.silent.intact
  refine ⟨hintact.catalog, hintact.resident.of_cache rfl rfl rfl, hintact.whole, ?_⟩
  intro q page u hq hu
  refine OrdSet.mem_erase.2 ⟨?_, hintact.owner_active hq hu⟩
  rintro rfl
  rcases hsettles.get? hq with hclean | ⟨hnot, hold⟩
  · rw [hclean] at hu
    contradiction
  · have hid := h.resident.id_eq hold
    subst hid
    exact hnot (List.mem_map_of_mem ((mem_dirtiedBy h.resident).2 ⟨hold, hu⟩))

/-- A step that may log, and leaves the tables their layouts. -/
structure Steady (p p' : Pool) : Prop where
  intact : p'.Intact
  layout_eq : p'.catalog.layout? = p.catalog.layout?
  size_eq : p'.catalog.pageSize = p.catalog.pageSize

theorem Silent.steady (h : Silent p p') : Steady p p' := ⟨h.intact, h.layout_eq, h.size_eq⟩

namespace Steady

theorem refl (h : p.Intact) : Steady p p := ⟨h, rfl, rfl⟩

theorem trans {p'' : Pool} (h : Steady p p') (h' : Steady p' p'') : Steady p p'' :=
  ⟨h'.intact, h'.layout_eq.trans h.layout_eq, h'.size_eq.trans h.size_eq⟩

/-- A flush changes the cache by no more than a clean page. -/
theorem flush (h : p.Intact) (q : PageId) : Steady p (p.flush q).2 := by
  have hresident := h.resident.flush q
  rcases flush_cases p q h.owner_active with
    ⟨journal, hf⟩ | ⟨page, catalog, journal, hq, hw, hrest⟩
  · rw [hf]
    exact ⟨h.congr rfl rfl rfl rfl fun _ => id, rfl, rfl⟩
  have hid := h.resident.id_eq hq
  subst hid
  obtain ⟨htables, hsize⟩ := Catalog.tables_writePage hw
  rcases hrest with ⟨owner, -, hf⟩ | ⟨-, hf⟩
  · rw [hf] at hresident ⊢
    refine ⟨?_, World.layout?_of_tables htables, hsize⟩
    exact h.of_pages (Catalog.sound_writePage h.catalog hw) hsize hresident (fun _ => id) .inl
  · rw [hf] at hresident ⊢
    refine ⟨?_, World.layout?_of_tables htables, hsize⟩
    refine h.of_pages (Catalog.sound_writePage h.catalog hw) hsize hresident (fun _ => id) ?_
    intro r other hr
    rw [get?_settlePage] at hr
    split at hr
    · rename_i hr'
      rw [hr', ← Option.some.inj hr]
      exact .inl hq
    · exact .inl hr

theorem flushEach (h : p.Intact) (qs : List PageId) : Steady p (p.flushEach qs).2 :=
  flushEach_preserves (P := Steady p) (fun q hs => hs.trans (flush hs.intact q)) (refl h) qs

theorem complete (h : p.Intact) (t : TransactionId) (commit : Bool) :
    Steady p (p.complete t commit).2 := by
  cases commit with
  | true =>
    simp only [Pool.complete, if_true]
    rcases commit_cases p t with ⟨e, journal, -, hc⟩ | ⟨journal, stats, -, -, hc⟩
    · rw [hc]
      exact ⟨h.congr rfl rfl rfl rfl fun _ => id, rfl, rfl⟩
    · have hlogged : ({ p with journal } : Pool).Intact := h.congr rfl rfl rfl rfl fun _ => id
      have hsettles := Settles.dirtiedBy Settles.writeCommitted hlogged t
      rw [hc]
      exact ⟨(hlogged.finish hsettles).congr rfl rfl rfl rfl fun _ => id,
        hsettles.silent.layout_eq, hsettles.silent.size_eq⟩
  | false =>
    simp only [Pool.complete, Bool.false_eq_true, if_false]
    rcases abort_cases p t with ⟨-, journal, stats, habort⟩ | ⟨-, habort⟩
    · have hsettles := Settles.dirtiedBy Settles.rollBack h t
      rw [habort]
      exact ⟨(h.finish hsettles).congr rfl rfl rfl rfl fun _ => id,
        hsettles.silent.layout_eq, hsettles.silent.size_eq⟩
    · rw [habort]
      exact (Silent.locks h _).steady

end Steady

end Pool

namespace World

/-- What holds of a world whatever its callers do: the pool is intact, and waiting calls fit their
tables. -/
structure Sturdy (w : World) : Prop where
  pool : w.pool.Intact
  calls : ∀ call ∈ w.session.pending, call.call.Fits w.pool.catalog.layout?

variable {w start : World} {rule : World → Action → Prop}

theorem sturdy_ofPool {p : Pool} {capacity : Nat} {catalog : Catalog} {journal : Journal}
    (hs : catalog.Sound) (hp : Pool.make capacity catalog journal = .ok p) : (ofPool p).Sturdy :=
  ⟨Pool.intact_make hs hp, nofun⟩

namespace Sturdy

/-- The pool may change under waiting calls, which stay as they are. -/
theorem withPool (h : w.Sturdy) {p : Pool} (hp : Pool.Steady w.pool p) : (w.withPool p).Sturdy :=
  ⟨hp.intact, fun call hcall => hp.layout_eq ▸ h.calls call hcall⟩

theorem issue (h : w.Sturdy) (step : Nat) (c : Command) :
    (w.issue step c).2.Sturdy ∧ Pool.Silent w.pool (w.issue step c).2.pool := by
  have hstart := Pool.StepsSilently.start h.pool c
  unfold World.issue
  rcases hs : c.start w.pool with ⟨progress, p⟩
  rw [hs] at hstart
  have hsilent : Pool.Silent w.pool p := hstart.1
  have hsturdy := h.withPool hsilent.steady
  cases progress with
  | ended result => exact ⟨⟨hsturdy.pool, hsturdy.calls⟩, hsilent⟩
  | needs call =>
    refine ⟨⟨hsturdy.pool, fun other hother => ?_⟩, hsilent⟩
    rcases List.mem_append.1 hother with hother | hother
    · exact hsturdy.calls other hother
    · rw [List.mem_singleton.1 hother]
      have hfits := hstart.2 call rfl
      rwa [← hsilent.layout_eq] at hfits

theorem turn (h : w.Sturdy) (i : Nat) :
    (w.turn i).2.Sturdy ∧ Pool.Silent w.pool (w.turn i).2.pool := by
  cases hi : w.session.pending[i]? with
  | none =>
    rw [turn_of_absent hi]
    exact ⟨h, .refl h.pool⟩
  | some call =>
    obtain ⟨hsilent, hfits⟩ := Pool.silent_turn h.pool (h.calls call (List.mem_of_getElem? hi))
    rcases hrun : w.pool.runCall 1 call.call with ⟨pass, p⟩
    rw [hrun] at hsilent hfits
    have hsturdy := h.withPool hsilent.steady
    cases pass with
    | ended result =>
      rw [turn_of_ended hi hrun]
      refine ⟨⟨hsturdy.pool, fun other hother => ?_⟩, hsilent⟩
      exact hsturdy.calls other (List.mem_of_mem_eraseIdx hother)
    | blocked c =>
      rw [turn_of_blocked hi hrun]
      refine ⟨⟨hsturdy.pool, fun other hother => ?_⟩, hsilent⟩
      rcases List.mem_or_eq_of_mem_set hother with hother | rfl
      · exact hsturdy.calls other hother
      · have hnext := hfits c rfl
        rwa [← hsilent.layout_eq] at hnext

theorem failStore (h : w.Sturdy) (table : TableId) (faults : DeviceFaults) :
    (w.perform (.failStore table faults)).Sturdy ∧
      Pool.Silent w.pool (w.perform (.failStore table faults)).pool := by
  simp only [World.perform]
  cases hf : w.pool.catalog.setFaults table faults with
  | error e => exact ⟨h, .refl h.pool⟩
  | ok catalog =>
    have hlayout : catalog.layout? = w.pool.catalog.layout? :=
      funext (Catalog.layout?_setFaults hf)
    have hsize : catalog.pageSize = w.pool.catalog.pageSize := by
      obtain ⟨heap, -, rfl⟩ := Catalog.setFaults_eq_ok hf
      rfl
    have hintact : ({ w.pool with catalog } : Pool).Intact :=
      h.pool.of_pages (Catalog.sound_setFaults h.pool.catalog hf) hsize
        (h.pool.resident.of_cache rfl rfl rfl) (fun _ => id) .inl
    have hsilent : Pool.Silent w.pool { w.pool with catalog } := ⟨hintact, rfl, hlayout, hsize⟩
    exact ⟨h.withPool hsilent.steady, hsilent⟩

theorem perform (h : w.Sturdy) (a : Action) : (w.perform a).Sturdy := by
  cases a with
  | begin => exact h.withPool (Pool.Silent.begin h.pool).steady
  | call step c => exact (h.issue step c).1
  | turn i => exact (h.turn i).1
  | complete t commit =>
    have hcompleted := h.withPool (.complete h.pool t commit)
    exact ⟨hcompleted.pool, hcompleted.calls⟩
  | flush page => exact h.withPool (.flush h.pool page)
  | flushAll => exact h.withPool (.flushEach h.pool _)
  | flushOf t => exact h.withPool (.flushEach h.pool _)
  | discard page => exact h.withPool (Pool.Silent.discard h.pool page).steady
  | releaseLock t page => exact h.withPool (Pool.Silent.locks h.pool _).steady
  | failStore table faults => exact (h.failStore table faults).1
  | failLog refuses forceFails =>
    exact h.withPool ⟨h.pool.congr rfl rfl rfl rfl fun _ => id, rfl, rfl⟩

end Sturdy

theorem Reaches.sturdy (hr : Reaches rule start w) (h : start.Sturdy) : w.Sturdy := by
  induction hr with
  | refl => exact h
  | step _ _ ih => exact ih.perform _

end World

end PagePool
