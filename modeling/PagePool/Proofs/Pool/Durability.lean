import PagePool.Proofs.Pool.World

namespace PagePool

namespace Pool

variable {p p' fresh : Pool} {l : Ledger} {t : TransactionId} {q : PageId} {page : Page}

/-! Which completions leave pages unsynced. -/

theorem unsynced_writeCommitted (h : p.writeCommitted page = (.ok (), p')) (hq : q ∈ p'.unsynced) :
    q ∈ p.unsynced := by
  unfold writeCommitted at h
  cases hw : p.catalog.writePage page with
  | error e => simp [hw] at h
  | ok catalog =>
    rw [hw] at h
    obtain ⟨-, rfl⟩ := Prod.mk.inj h
    exact (OrdSet.mem_erase.1 hq).2

theorem unsynced_rollBack (hq : q ∈ (p.rollBack page).2.unsynced) : q ∈ p.unsynced := by
  unfold rollBack at hq
  split at hq
  · split at hq
    · exact (OrdSet.mem_erase.1 hq).2
    · exact hq
  · exact hq

/-- A commit whose writes all succeed leaves no page unsynced that was synced before. -/
theorem unsynced_writeCommitted_all {pages : List Page}
    (h : (forEachPage writeCommitted p pages).1 = .ok ())
    (hq : q ∈ (forEachPage writeCommitted p pages).2.unsynced) : q ∈ p.unsynced := by
  induction pages generalizing p with
  | nil => exact hq
  | cons page pages ih =>
    rcases hfirst : p.writeCommitted page with ⟨first, p'⟩
    rcases hlater : forEachPage writeCommitted p' pages with ⟨later, p''⟩
    simp only [forEachPage, hfirst, hlater] at h hq
    cases first with
    | error e => contradiction
    | ok u =>
      apply unsynced_writeCommitted hfirst
      apply ih
      · rw [hlater]
        exact h
      · rw [hlater]
        exact hq

theorem unsynced_rollBack_all {pages : List Page}
    (hq : q ∈ (forEachPage rollBack p pages).2.unsynced) : q ∈ p.unsynced := by
  induction pages generalizing p with
  | nil => exact hq
  | cons page pages ih => exact unsynced_rollBack (ih hq)

theorem unsynced_commit (h : (p.logCommit t).1 = .ok () → (p.commit t).1 = .ok ())
    (hq : q ∈ (p.commit t).2.unsynced) : q ∈ p.unsynced := by
  rcases commit_cases p t with ⟨e, journal, -, hc⟩ | ⟨journal, stats, hlog, hresult, hc⟩
  · rw [hc] at hq
    exact hq
  · rw [hc] at hq
    rw [hresult] at h
    have hwritten := unsynced_writeCommitted_all (h hlog) hq
    exact hwritten

theorem unsynced_abort (hq : q ∈ (p.abort t).2.unsynced) : q ∈ p.unsynced := by
  rcases abort_cases p t with ⟨-, journal, stats, habort⟩ | ⟨-, habort⟩
  · rw [habort] at hq
    exact unsynced_rollBack_all hq
  · rw [habort] at hq
    exact hq

/-- A page that a call has made room in place of was clean, and the store has its bytes. -/
theorem Advances.evicted {l' : Ledger} (h : Advances t p l p' l') (hp : p.Agrees l)
    (hq : p.pages.get? q = some page) (hgone : p'.isCached q ≠ true) :
    p.catalog.stored? q = some page.data ∧ p'.catalog.stored? q = some page.data := by
  obtain ⟨d, hd⟩ :=
    Option.isSome_iff_exists.1 (hp.stored_of_cached (isCached_iff.2 ⟨page, hq⟩))
  have hd' := h.stored_stays hd
  have hclean : page.dirtiedBy = none := by
    -- what is pending stays pending through a turn, and pending pages are cached
    rw [Option.eq_none_iff_forall_ne_some]
    intro u hu
    have hsome : l.pending u q = some page.data := hp.pending_iff.2 ⟨page, hq, hu, rfl⟩
    obtain ⟨d', hlater⟩ := Option.isSome_iff_exists.1 (h.pending_stays (by rw [hsome]; rfl))
    obtain ⟨other, hother, -⟩ := h.agrees.pending_iff.1 hlater
    exact hgone (isCached_iff.2 ⟨other, hother⟩)
  have hsynced : q ∉ p'.unsynced := fun hm => hgone (h.agrees.resident.cached_of_unsynced hm)
  have hdata : d = page.data := by
    rw [hp.clean_eq hq hclean, ← h.committed_eq]
    exact h.agrees.stored_eq hsynced hd'
  rw [← hdata]
  exact ⟨hd, hd'⟩

/-! What a pool reads that has just been opened. -/

theorem acquire_empty (r : LockRequest) : (LockTable.empty.acquire r).1 = .granted := by
  have hgrantable : LockTable.empty.isGrantable r = true := by
    refine LockTable.isGrantable_iff.2 (.inr fun h hmem => ?_)
    rcases (LockTable.mem_conflicting.1 hmem).2 with hw | ⟨-, hr⟩
    · contradiction
    · exact OrdSet.not_mem_empty _ hr
  unfold LockTable.acquire
  rw [if_pos hgrantable]

/-- The first fetch from a new pool reads the store. -/
theorem pass_fetch_make {capacity : Nat} {catalog : Catalog} {journal : Journal} {stored : Page}
    (h : make capacity catalog journal = .ok fresh) (r : LockRequest)
    (hr : catalog.readPage r.page = .ok stored) {heap : HeapTable}
    (ht : catalog.table r.page.table = .ok heap) :
    (fresh.pass ⟨r, .fetch⟩).1 = .ended (.ok (.page stored)) := by
  obtain ⟨hcapacity, hfresh⟩ := make_eq_ok h
  rcases ha : LockTable.empty.acquire r with ⟨attempt, locks⟩
  obtain rfl : attempt = .granted := by
    rw [← acquire_empty r, ha]
  have hlocks : fresh.locks = .empty := by rw [hfresh]
  have hfirst : ({ fresh with locks } : Pool).read r.tid r.page =
      (.ok stored, (({ fresh with locks } : Pool).afterMiss r.tid).addClean stored) := by
    rw [hfresh]
    exact read_of_room rfl hcapacity hr
  have hheap : fresh.catalog.table r.page.table = .ok heap := by
    rw [hfresh]
    exact ht
  simp only [pass, lockBound, runCall, hlocks, ha, resume, Task.source, obtain, hfirst]
  simp only [addClean, afterMiss, hheap, continueOn]

end Pool

namespace World

variable {w : World} {p fresh : Pool} {capacity : Nat} {catalog : Catalog} {journal : Journal}

/-- Whoever fetches the page first from another pool gets the committed bytes. -/
def FetchesCommitted (w : World) (fresh : Pool) (q : PageId) : Prop :=
  ∀ t access, (fresh.pass ⟨⟨t, q, Access.lockMode access⟩, .fetch⟩).1 =
    .ended (.ok (.page (.ofStored q (w.ledger.committed q))))

/-- What a pool that is opened over the same files makes of a table that it opens under its id: a
fetch of a page that both have reads the committed bytes, and no page is missing from a file whose
pages 32 bits can count. -/
def ReadsCommitted (w : World) (fresh : Pool) : Prop :=
  ∀ i heap table, w.pool.catalog.tables.get? i = some heap →
    fresh.catalog.tables.get? i = some table → table.file.name = heap.file.name →
    (∀ n, n < heap.numPages → n < table.numPages → w.FetchesCommitted fresh ⟨i, n⟩) ∧
    ((w.pool.catalog.files.bytes heap.file.name).length < UInt32.size * w.pool.catalog.pageSize →
      heap.numPages ≤ table.numPages)

/-- A pool that is opened over the same files has a table for each one that there was. -/
def HasTables (w : World) (fresh : Pool) : Prop :=
  ∀ i heap, w.pool.catalog.tables.get? i = some heap →
    ∃ table, fresh.catalog.tables.get? i = some table ∧ table.file.name = heap.file.name

theorem reopen_eq_ok {specs : List TableSpec} {ids : List TableId}
    (h : p.reopen specs capacity = .ok (ids, fresh)) :
    ∃ catalog, (Catalog.empty p.catalog.pageSize p.catalog.files).openAll specs =
        .ok (ids, catalog) ∧
      Pool.make capacity catalog p.journal.reopen = .ok fresh := by
  unfold Pool.reopen at h
  cases ho : (Catalog.empty p.catalog.pageSize p.catalog.files).openAll specs with
  | error e => simp [ho] at h
  | ok r =>
    obtain ⟨opened, catalog⟩ := r
    rw [ho] at h
    simp only at h
    cases hm : Pool.make capacity catalog p.journal.reopen with
    | error e => simp [hm, Except.map] at h
    | ok made =>
      rw [hm] at h
      obtain ⟨rfl, rfl⟩ := Prod.mk.inj (Except.ok.inj h)
      exact ⟨catalog, rfl, hm⟩

theorem Consistent.readsCommitted (h : w.Consistent) (hsynced : ∀ q, q ∉ w.pool.unsynced)
    {specs : List TableSpec} {ids : List TableId}
    (hr : w.pool.reopen specs capacity = .ok (ids, fresh)) : w.ReadsCommitted fresh := by
  obtain ⟨catalog, ho, hm⟩ := reopen_eq_ok hr
  intro i heap table hheap htable hname
  obtain ⟨-, rfl⟩ := Pool.make_eq_ok hm
  obtain ⟨hfiles, -, htables⟩ := Catalog.openAll_eq_ok ho
  obtain ⟨hid, hopened, -⟩ := (htables htable).resolve_left nofun
  have hpageSize : heap.file.pageSize = w.pool.catalog.pageSize :=
    h.agrees.catalog.pageSize_eq hheap
  have hsize : table.file.pageSize = heap.file.pageSize := by
    rw [hopened.file_eq, hpageSize]
    rfl
  constructor
  · intro n hn hn' t access
    have hbytes : table.file.pageBytes catalog.files n = w.ledger.committed ⟨i, n⟩ := by
      have hstored : w.pool.catalog.stored? ⟨i, n⟩ =
          some (heap.file.pageBytes w.pool.catalog.files n) :=
        Catalog.stored?_eq_some.2 ⟨heap, hheap, hn, rfl⟩
      rw [← h.agrees.stored_eq (hsynced ⟨i, n⟩) hstored, hfiles]
      simp only [PageFile.pageBytes, PageFile.offset, hname, hsize]
      rfl
    have hfits : table.file.Fits catalog.files := by
      rw [hfiles]
      exact hopened.fits
    have hnone : table.faults.reads.contains n = false := by
      rw [hopened.faults_eq]
      rfl
    rw [← hbytes]
    exact Pool.pass_fetch_make hm _ (Catalog.readPage_of_table htable hid hfits hn' hnone)
      (Catalog.table_eq_ok.2 htable)
  · intro hlen
    have hfits : heap.numPages.toNat * heap.file.pageSize ≤
        (w.pool.catalog.files.bytes heap.file.name).length := h.agrees.catalog.fits hheap
    rw [hpageSize] at hfits
    have hpos : 0 < w.pool.catalog.pageSize := Nat.pos_of_ne_zero fun hz => by simp [hz] at hlen
    -- an open counts the pages by the length of the file, modulo 32 bits
    have hcount : table.numPages.toNat =
        (w.pool.catalog.files.bytes heap.file.name).length / w.pool.catalog.pageSize := by
      rw [HeapTable.numPages, hopened.file_eq, hname]
      exact Nat.mod_eq_of_lt ((Nat.div_lt_iff_lt_mul hpos).2 hlen)
    rw [UInt32.le_iff_toNat_le, hcount]
    exact (Nat.le_div_iff_mul_le hpos).2 hfits

/-- A new pool over the tables as they are open reads every page that the device lets it read. -/
theorem Consistent.fetchesCommitted (h : w.Consistent) (hsynced : ∀ q, q ∉ w.pool.unsynced)
    (hm : Pool.make capacity w.pool.catalog journal = .ok fresh) {q : PageId} {heap : HeapTable}
    (hheap : w.pool.catalog.tables.get? q.table = some heap) (hn : q.pageNo < heap.numPages)
    (hdev : heap.faults.reads.contains q.pageNo = false) : w.FetchesCommitted fresh q := by
  intro t access
  have hstored : w.pool.catalog.stored? q =
      some (heap.file.pageBytes w.pool.catalog.files q.pageNo) :=
    Catalog.stored?_eq_some.2 ⟨heap, hheap, hn, rfl⟩
  have hsound := h.agrees.catalog
  rw [← h.agrees.stored_eq (hsynced q) hstored]
  exact Pool.pass_fetch_make hm _
    (Catalog.readPage_of_table hheap (hsound.id_eq hheap) (hsound.fits hheap) hn hdev)
    (Catalog.table_eq_ok.2 hheap)

/-- The tables can be opened again as they stand, whatever room the new pool is to have. -/
theorem Consistent.exists_reopen (h : w.Consistent) (hroom : capacity ≠ 0) :
    ∃ ids fresh, w.pool.reopen w.pool.catalog.specs capacity = .ok (ids, fresh) ∧
      w.HasTables fresh := by
  obtain ⟨ids, catalog, hopen, htables⟩ := h.agrees.catalog.exists_openAll_specs
  cases hmake : Pool.make capacity catalog w.pool.journal.reopen with
  | error e => simp [Pool.make, hroom] at hmake
  | ok fresh =>
    refine ⟨ids, fresh, ?_, ?_⟩
    · simp only [Pool.reopen, hopen, hmake, Except.map]
    · intro i heap hheap
      obtain ⟨-, rfl⟩ := Pool.make_eq_ok hmake
      exact htables hheap

/-- Only a call takes pages from the cache, and only such as the store has. -/
theorem Consistent.evicted (h : w.Consistent) {a : Action} (ha : w.Orderly a) {q : PageId}
    {page : Page} (hq : w.pool.pages.get? q = some page)
    (hgone : (w.perform a).pool.isCached q ≠ true) :
    w.pool.catalog.stored? q = some page.data ∧
      (w.perform a).pool.catalog.stored? q = some page.data := by
  have hcached : w.pool.isCached q = true := Pool.isCached_iff.2 ⟨page, hq⟩
  have hflush {p' : Pool} (hf : Pool.Flushes w.pool p') : p'.isCached q = true := by
    rw [hf.isCached_eq]
    exact hcached
  cases a with
  | begin => exact absurd hcached hgone
  | call step c => exact (advances_issue h step c).evicted h.agrees hq hgone
  | turn i =>
    obtain ⟨t, hadvances⟩ := advances_turn h i
    exact hadvances.evicted h.agrees hq hgone
  | complete t commit => exact absurd ((Pool.completes w.pool t commit).isCached hcached) hgone
  | flush r => exact absurd (hflush (h.agrees.flush r).2) hgone
  | flushAll => exact absurd (hflush (h.agrees.flushEach _).2) hgone
  | flushOf t => exact absurd (hflush (h.agrees.flushEach _).2) hgone
  | discard r => exact ha.elim
  | releaseLock t r => exact ha.elim
  | failStore table faults =>
    refine absurd ?_ hgone
    simp only [World.perform]
    split
    · exact hcached
    · exact hcached
  | failLog refuses forceFails => exact absurd hcached hgone

/-- A step that is no flush, and no commit that gets past the log and then fails to write. -/
def Calm (w : World) : Action → Prop
  | .flush _ => False
  | .flushAll => False
  | .flushOf _ => False
  | .complete t true => (w.pool.logCommit t).1 = .ok () → (w.pool.commit t).1 = .ok ()
  | _ => True

theorem Consistent.synced_perform (h : w.Consistent) {a : Action} (ha : w.Orderly a)
    (hcalm : w.Calm a) (hs : ∀ q, q ∉ w.pool.unsynced) (q : PageId) :
    q ∉ (w.perform a).pool.unsynced := by
  cases a with
  | begin => exact hs q
  | call step c =>
    have hsame := (advances_issue h step c).unsynced_eq
    simp only [World.perform, hsame]
    exact hs q
  | turn i =>
    obtain ⟨t, hadvances⟩ := advances_turn h i
    simp only [World.perform, hadvances.unsynced_eq]
    exact hs q
  | complete t commit =>
    cases commit with
    | true => exact fun hq => hs q (Pool.unsynced_commit hcalm hq)
    | false => exact fun hq => hs q (Pool.unsynced_abort hq)
  | flush r => exact hcalm.elim
  | flushAll => exact hcalm.elim
  | flushOf t => exact hcalm.elim
  | discard r => exact ha.elim
  | releaseLock t r => exact ha.elim
  | failStore table faults =>
    simp only [World.perform]
    split
    · exact hs q
    · exact hs q
  | failLog refuses forceFails => exact hs q

theorem Reaches.synced {start : World} (hr : Reaches (fun w a => w.Orderly a ∧ w.Calm a) start w)
    (hstart : start.Consistent) (hs : ∀ q, q ∉ start.pool.unsynced) (q : PageId) :
    q ∉ w.pool.unsynced := by
  induction hr generalizing q with
  | refl => exact hs q
  | step hr ha ih =>
    have hconsistent := hr.consistent (fun _ _ h => h.1) hstart
    exact hconsistent.synced_perform ha.1 ha.2 ih q

/-- What cache and store hold, in whatever order calls, completions, flushes and failures come: a
cached page falls back to its committed bytes, and has them or its owner's; the store has the
committed bytes of every page that is not both cached and unsynced; a page that leaves the cache
leaves its bytes in the store; and once no page is unsynced, a new pool over the same tables reads
what is committed, and so does one over the same files, which can be opened. Without flushes and
failed writes of commits no page is ever unsynced. -/
theorem store_behind_cache (hs : catalog.Sound)
    (hp : Pool.make capacity catalog journal = .ok p) :
    (∀ w, Reaches Orderly (ofPool p) w →
      (∀ q page, w.pool.pages.get? q = some page →
        page.before = w.ledger.committed q ∧
        (page.dirtiedBy = none → page.data = w.ledger.committed q) ∧
        (∀ t, page.dirtiedBy = some t → w.ledger.pending t q = some page.data) ∧
        (q ∉ w.pool.unsynced → w.pool.catalog.stored? q = some (w.ledger.committed q))) ∧
      (∀ q d, w.pool.isCached q = false → w.pool.catalog.stored? q = some d →
        d = w.ledger.committed q) ∧
      (∀ a q page, w.Orderly a → w.pool.pages.get? q = some page →
        (w.perform a).pool.isCached q = false →
        w.pool.catalog.stored? q = some page.data ∧
          (w.perform a).pool.catalog.stored? q = some page.data) ∧
      ((∀ q, q ∉ w.pool.unsynced) →
        (∀ room journal fresh, Pool.make room w.pool.catalog journal = .ok fresh →
          ∀ q heap, w.pool.catalog.tables.get? q.table = some heap → q.pageNo < heap.numPages →
            heap.faults.reads.contains q.pageNo = false → w.FetchesCommitted fresh q) ∧
        (∀ specs room ids fresh, w.pool.reopen specs room = .ok (ids, fresh) →
          w.ReadsCommitted fresh) ∧
        ∀ room, room ≠ 0 → ∃ ids fresh,
          w.pool.reopen w.pool.catalog.specs room = .ok (ids, fresh) ∧ w.HasTables fresh)) ∧
    ∀ w, Reaches (fun w a => w.Orderly a ∧ w.Calm a) (ofPool p) w →
      (∀ q, q ∉ w.pool.unsynced) ∧
        ∀ q d, w.pool.catalog.stored? q = some d → d = w.ledger.committed q := by
  have hstart := consistent_ofPool hs hp
  constructor
  · intro w hw
    have hconsistent : w.Consistent := hw.consistent (fun _ _ => id) hstart
    have hagrees := hconsistent.agrees
    refine ⟨?_, ?_, ?_, ?_⟩
    · intro q page hq
      refine ⟨hagrees.before_eq hq, hagrees.clean_eq hq,
        fun t ht => hagrees.pending_iff.2 ⟨page, hq, ht, rfl⟩, ?_⟩
      intro hsynced
      obtain ⟨d, hd⟩ := Option.isSome_iff_exists.1
        (hagrees.stored_of_cached (Pool.isCached_iff.2 ⟨page, hq⟩))
      rw [hd, hagrees.stored_eq hsynced hd]
    · intro q d hnot hd
      refine hagrees.stored_eq ?_ hd
      intro hm
      rw [hagrees.resident.cached_of_unsynced hm] at hnot
      contradiction
    · intro a q page ha hq hgone
      exact hconsistent.evicted ha hq (by rw [hgone]; exact Bool.false_ne_true)
    · intro hsynced
      exact ⟨fun room journal fresh hm q heap => hconsistent.fetchesCommitted hsynced hm,
        fun specs room ids fresh hr => hconsistent.readsCommitted hsynced hr,
        fun room hroom => hconsistent.exists_reopen hroom⟩
  · intro w hw
    have hconsistent : w.Consistent := hw.consistent (fun _ _ h => h.1) hstart
    have hempty : ∀ q, q ∉ (ofPool p).pool.unsynced := by
      obtain ⟨-, rfl⟩ := Pool.make_eq_ok hp
      exact OrdSet.not_mem_empty
    have hsynced := hw.synced hstart hempty
    exact ⟨hsynced, fun q d hd => hconsistent.agrees.stored_eq (hsynced q) hd⟩

/-- The store refuses the page of a transaction that commits. -/
def commitUnwritten : List Action :=
  [.begin, .call 0 (.insert ⟨1⟩ ⟨1⟩ [7]), .turn 0, .failStore ⟨1⟩ ⟨[], [0], false⟩,
    .complete ⟨1⟩ true]

theorem cached_unwritten :
    ∃ page, ((ofPool onePage).performAll commitUnwritten).pool.pages.get? ⟨⟨1⟩, 0⟩ = some page ∧
      page.data = [1, 7] ∧ page.before = [1, 7] ∧
      ((ofPool onePage).performAll commitUnwritten).pool.catalog.stored? ⟨⟨1⟩, 0⟩ =
        some [0, 0] := by
  have hw : Reaches Orderly (ofPool onePage) ((ofPool onePage).performAll commitUnwritten) :=
    Reaches.refl.performAll (by decide)
  have hpage : ((ofPool onePage).performAll commitUnwritten).pool.pages.get? ⟨⟨1⟩, 0⟩ =
      some ⟨⟨⟨1⟩, 0⟩, [1, 7], [1, 7], none⟩ := by decide +kernel
  have hcommitted : ((ofPool onePage).performAll commitUnwritten).ledger.committed ⟨⟨1⟩, 0⟩ =
      [1, 7] := by decide +kernel
  obtain ⟨hcached, -⟩ := (store_behind_cache Catalog.sound_oneSlot make_onePage).1 _ hw
  obtain ⟨hbefore, hclean, -⟩ := hcached _ _ hpage
  exact ⟨_, hpage, (hclean rfl).trans hcommitted, hbefore.trans hcommitted, by decide +kernel⟩

end World

end PagePool
