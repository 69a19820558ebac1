import PagePool.Pool.Flush
import PagePool.Proofs.Cache.Recency
import PagePool.Proofs.Store.Stored

namespace PagePool.Pool

/-- The cache and its bookkeeping agree: a page stands under its own id, what is cached is what is
tracked, and a page may go if it is clean and the store has its bytes. -/
structure Resident (p : Pool) : Prop where
  id_eq : ∀ {q page}, p.pages.get? q = some page → page.id = q
  tracked_iff : ∀ {q}, p.recency.isTracked q = true ↔ p.isCached q = true
  evictable_iff : ∀ {q}, p.recency.isEvictable q = true ↔
    ∃ page, p.pages.get? q = some page ∧ page.dirtiedBy = none ∧ q ∉ p.unsynced
  cached_of_unsynced : ∀ {q}, q ∈ p.unsynced → p.isCached q = true

variable {p p' : Pool} {q r : PageId} {page stored : Page} {t : TransactionId}

theorem isCached_iff : p.isCached q = true ↔ ∃ page, p.pages.get? q = some page :=
  Option.isSome_iff_exists

theorem isCached_eq_false : p.isCached q = false ↔ p.pages.get? q = none := by
  rw [isCached, OrdMap.contains, Option.isSome_eq_false_iff, Option.isNone_iff_eq_none]

/-- A new pool has some room, and nothing in it. -/
theorem make_eq_ok {capacity : Nat} {catalog : Catalog} {journal : Journal}
    (h : make capacity catalog journal = .ok p) :
    0 < capacity ∧ p =
      { capacity, pages := .empty, recency := .empty, active := .empty, unsynced := .empty
        locks := .empty, catalog, journal, stats := .zero, nextTid := 1 } := by
  unfold make at h
  split at h
  · contradiction
  · rename_i hcapacity
    exact ⟨Nat.pos_of_ne_zero hcapacity, (Except.ok.inj h).symm⟩

theorem resident_make {capacity : Nat} {catalog : Catalog} {journal : Journal}
    (h : make capacity catalog journal = .ok p) : p.Resident := by
  obtain ⟨-, rfl⟩ := make_eq_ok h
  constructor
  · nofun
  · intro q
    simp [Recency.isTracked, Recency.empty, isCached, OrdMap.contains, OrdMap.empty, OrdMap.get?,
      OrdMap.lookup]
  · intro q
    simp [Recency.isEvictable, Recency.empty, OrdMap.empty, OrdMap.get?, OrdMap.lookup]
  · exact fun hq => absurd hq (OrdSet.not_mem_empty _)

/-! What the operations on the cache come down to. -/

theorem evict_eq_ok (h : p.evict = .ok p') :
    ∃ victim, p.recency.isEvictable victim = true ∧
      p' = { p with
        pages := p.pages.erase victim
        recency := p.recency.remove victim
        stats.evictions := p.stats.evictions + 1 } := by
  unfold evict at h
  rcases hv : p.recency.evict with ⟨victim?, recency⟩
  rw [hv] at h
  cases victim? with
  | none => contradiction
  | some victim =>
    obtain ⟨hon, rfl⟩ := Recency.evict_eq_some hv
    exact ⟨victim, hon, (Except.ok.inj h).symm⟩

theorem makeRoom_eq_ok (h : p.makeRoom = .ok p') : p' = p ∨ p.evict = .ok p' := by
  unfold makeRoom at h
  split at h
  · exact .inl (Except.ok.inj h).symm
  · exact .inr h

theorem isCached_of_makeRoom (h : p.makeRoom = .ok p') (hq : p'.isCached q = true) :
    p.isCached q = true := by
  rcases makeRoom_eq_ok h with rfl | he
  · exact hq
  · obtain ⟨victim, -, rfl⟩ := evict_eq_ok he
    rw [isCached_iff] at hq ⊢
    simp only [OrdMap.get?_erase] at hq
    split at hq
    · obtain ⟨page, hpage⟩ := hq
      contradiction
    · exact hq

/-- A pool that has counted an access it could not answer from the cache. -/
def afterMiss (p : Pool) (t : TransactionId) : Pool :=
  { p with active := p.active.insert t, stats.misses := p.stats.misses + 1 }

/-- A read finds its page cached, finds no room for it, or loads it after making room. -/
theorem read_cases (p : Pool) (t : TransactionId) (q : PageId) :
    (∃ page, p.pages.get? q = some page ∧
      p.read t q = (.ok page, { p with active := p.active.insert t }.hit q)) ∨
    p.pages.get? q = none ∧
      ((∃ e, p.read t q = (.error e, p.afterMiss t)) ∨
        ∃ p', (p.afterMiss t).makeRoom = .ok p' ∧
          ((∃ e, p.read t q = (.error e, p')) ∨
            ∃ stored, p'.catalog.readPage q = .ok stored ∧
              p.read t q = (.ok stored, p'.addClean stored))) := by
  cases hq : p.pages.get? q with
  | some page =>
    refine .inl ⟨page, rfl, ?_⟩
    unfold read
    simp only [hq]
  | none =>
    refine .inr ⟨rfl, ?_⟩
    have hread : p.read t q = ({ p with active := p.active.insert t } : Pool).load q := by
      unfold read
      simp only [hq]
    rw [hread]
    unfold load
    change _ ∨ ∃ p', (p.afterMiss t).makeRoom = .ok p' ∧ _
    cases hroom : (p.afterMiss t).makeRoom with
    | error e => exact .inl ⟨e, by rw [afterMiss] at hroom; simp only [hroom]; rfl⟩
    | ok p' =>
      refine .inr ⟨p', rfl, ?_⟩
      rw [afterMiss] at hroom
      simp only [hroom]
      cases hstore : p'.catalog.readPage q with
      | error e => exact .inl ⟨e, rfl⟩
      | ok stored => exact .inr ⟨stored, rfl, rfl⟩

/-- A read of a page that is not cached makes room before it goes to the store. -/
theorem read_of_absent (hq : p.pages.get? q = none) (t : TransactionId) :
    p.read t q =
      match (p.afterMiss t).makeRoom with
      | .error e => (.error e, p.afterMiss t)
      | .ok k =>
        match k.catalog.readPage q with
        | .error e => (.error e, k)
        | .ok stored => (.ok stored, k.addClean stored) := by
  rw [read, hq]
  rfl

theorem read_of_room (hq : p.pages.get? q = none) (hroom : p.pages.size < p.capacity)
    (hr : p.catalog.readPage q = .ok stored) :
    p.read t q = (.ok stored, (p.afterMiss t).addClean stored) := by
  unfold read load makeRoom
  simp only [hq, hroom, if_true, hr]
  rfl

/-- Logging a flush changes the journal and nothing else. -/
theorem logFlush_eq (p : Pool) (owner : TransactionId) (page : Page) :
    ∃ result journal, p.logFlush owner page = (result, { p with journal }) := by
  unfold logFlush
  simp only
  split
  · exact ⟨_, _, rfl⟩
  · split
    · exact ⟨_, _, rfl⟩
    · exact ⟨_, _, rfl⟩

theorem logCommit_eq (p : Pool) (t : TransactionId) :
    ∃ result journal, p.logCommit t = (result, { p with journal }) := by
  unfold logCommit
  split
  · exact ⟨_, _, rfl⟩
  · split
    · exact ⟨_, _, rfl⟩
    · exact ⟨_, _, rfl⟩

/-- Other pages stay as they were when one is settled. -/
theorem get?_settlePage (p : Pool) (page : Page) (on : Bool) (r : PageId) :
    (p.settlePage page on).pages.get? r = if r = page.id then some page else p.pages.get? r :=
  OrdMap.get?_insert _ _ _ _

theorem get?_writeCommitted (p : Pool) (page : Page) (r : PageId) :
    (p.writeCommitted page).2.pages.get? r =
      if r = page.id then some page.committed else p.pages.get? r := by
  unfold writeCommitted
  split <;> exact get?_settlePage _ _ _ _

theorem get?_rollBack (p : Pool) (page : Page) (r : PageId) :
    (p.rollBack page).2.pages.get? r =
      if r = page.id then some page.beforeImage else p.pages.get? r := by
  unfold rollBack
  split
  · split <;> exact get?_settlePage _ _ _ _
  · exact get?_settlePage _ _ _ _

namespace Resident

/-- A page is put in place of what was cached under its id; nothing else changes. -/
theorem put (h : p.Resident) (q : PageId) (page : Page) (hid : page.id = q)
    (hpages : ∀ r, p'.pages.get? r = if r = q then some page else p.pages.get? r)
    (htracked : ∀ r, p'.recency.isTracked r = true ↔ r = q ∨ p.recency.isTracked r = true)
    (hother : ∀ r, r ≠ q → (p'.recency.isEvictable r = true ↔ p.recency.isEvictable r = true))
    (hself : p'.recency.isEvictable q = true ↔ page.dirtiedBy = none ∧ q ∉ p'.unsynced)
    (hunsynced : ∀ r, r ≠ q → (r ∈ p'.unsynced ↔ r ∈ p.unsynced)) : p'.Resident := by
  have hcached (r : PageId) : p'.isCached r = true ↔ r = q ∨ p.isCached r = true := by
    rw [isCached_iff, isCached_iff, hpages]
    by_cases hr : r = q <;> simp [hr]
  constructor
  · intro r other hr
    rw [hpages] at hr
    split at hr
    · rename_i hrq
      rw [← Option.some.inj hr, hid, hrq]
    · exact h.id_eq hr
  · intro r
    rw [htracked, hcached, h.tracked_iff]
  · intro r
    rw [hpages]
    by_cases hr : r = q
    · subst hr
      rw [hself]
      simp
    · rw [hother r hr, h.evictable_iff, if_neg hr, hunsynced r hr]
  · intro r hr
    rw [hcached]
    by_cases hrq : r = q
    · exact .inl hrq
    · exact .inr (h.cached_of_unsynced ((hunsynced r hrq).1 hr))

/-- A page that is let go leaves all the bookkeeping. -/
theorem remove (h : p.Resident) (hpages : p'.pages = p.pages.erase q)
    (hrecency : p'.recency = p.recency.remove q) (hself : q ∉ p'.unsynced)
    (hunsynced : ∀ r, r ≠ q → (r ∈ p'.unsynced ↔ r ∈ p.unsynced)) : p'.Resident := by
  have hget (r : PageId) : p'.pages.get? r = if r = q then none else p.pages.get? r := by
    rw [hpages, OrdMap.get?_erase]
  have hcached (r : PageId) : p'.isCached r = true ↔ r ≠ q ∧ p.isCached r = true := by
    rw [isCached_iff, isCached_iff, hget]
    by_cases hr : r = q <;> simp [hr]
  constructor
  · intro r other hr
    rw [hget] at hr
    split at hr
    · contradiction
    · exact h.id_eq hr
  · intro r
    rw [hrecency, Recency.isTracked_remove, hcached, h.tracked_iff]
  · intro r
    rw [hrecency, Recency.isEvictable_remove, hget, h.evictable_iff]
    by_cases hr : r = q
    · simp [hr]
    · simp [hr, hunsynced r hr]
  · intro r hr
    have hrq : r ≠ q := by
      rintro rfl
      exact hself hr
    exact (hcached r).2 ⟨hrq, h.cached_of_unsynced ((hunsynced r hrq).1 hr)⟩

/-- Residency reads the cached pages, the recency order and the unsynced pages, nothing else. -/
theorem of_cache (h : p.Resident) (hpages : p'.pages = p.pages) (hrecency : p'.recency = p.recency)
    (hunsynced : p'.unsynced = p.unsynced) : p'.Resident := by
  have hcached (r : PageId) : p'.isCached r = p.isCached r := by rw [isCached, hpages]; rfl
  constructor
  · rw [hpages]
    exact h.id_eq
  · intro r
    rw [hrecency, hcached]
    exact h.tracked_iff
  · rw [hrecency, hpages, hunsynced]
    exact h.evictable_iff
  · intro r
    rw [hunsynced, hcached]
    exact h.cached_of_unsynced

theorem evict (h : p.Resident) (he : p.evict = .ok p') : p'.Resident := by
  obtain ⟨victim, hon, rfl⟩ := evict_eq_ok he
  obtain ⟨-, -, -, hsynced⟩ := h.evictable_iff.1 hon
  exact h.remove rfl rfl hsynced fun _ _ => Iff.rfl

theorem makeRoom (h : p.Resident) (he : p.makeRoom = .ok p') : p'.Resident := by
  rcases makeRoom_eq_ok he with rfl | he
  · exact h
  · exact h.evict he

theorem discard (h : p.Resident) (q : PageId) : (p.discard q).Resident := by
  unfold Pool.discard
  split
  · refine h.remove rfl rfl ?_ ?_
    · exact fun hq => (OrdSet.mem_erase.1 hq).1 rfl
    · exact fun r hr => ⟨fun hm => (OrdSet.mem_erase.1 hm).2, fun hm => OrdSet.mem_erase.2 ⟨hr, hm⟩⟩
  · exact h

theorem hit (h : p.Resident) (hq : p.isCached q = true) : (p.hit q).Resident := by
  obtain ⟨page, hpage⟩ := isCached_iff.1 hq
  refine h.put q page (h.id_eq hpage) ?_ ?_ ?_ ?_ ?_
  · intro r
    split
    · rename_i hr
      rw [hr]
      exact hpage
    · rfl
  · intro r
    exact Recency.isTracked_access
  · exact fun r _ => Recency.isEvictable_access
  · refine Recency.isEvictable_access.trans (h.evictable_iff.trans ?_)
    simp [hpage, Pool.hit]
  · exact fun _ _ => Iff.rfl

/-- A page that is not cached is not unsynced, so a page fresh from the store may go. -/
theorem addClean (h : p.Resident) (hq : p.isCached page.id ≠ true)
    (hclean : page.dirtiedBy = none) : (p.addClean page).Resident := by
  have hsynced : page.id ∉ p.unsynced := fun hm => hq (h.cached_of_unsynced hm)
  refine h.put page.id page rfl (fun r => OrdMap.get?_insert _ _ _ _) ?_ ?_ ?_ ?_
  · intro r
    exact Recency.isTracked_setEvictable.trans Recency.isTracked_access
  · intro r hr
    refine Recency.isEvictable_setEvictable.trans ?_
    rw [if_neg hr]
    exact Recency.isEvictable_access
  · refine Recency.isEvictable_setEvictable.trans ?_
    rw [if_pos rfl, Recency.isTracked_access]
    simp [hclean, hsynced, Pool.addClean]
  · exact fun _ _ => Iff.rfl

theorem addDirty (h : p.Resident) (t : TransactionId) (page : Page) :
    (p.addDirty t page).Resident := by
  refine h.put page.id (page.markDirty t) rfl (fun r => OrdMap.get?_insert _ _ _ _) ?_ ?_ ?_ ?_
  · intro r
    exact Recency.isTracked_setEvictable.trans Recency.isTracked_access
  · intro r hr
    refine Recency.isEvictable_setEvictable.trans ?_
    rw [if_neg hr]
    exact Recency.isEvictable_access
  · refine Recency.isEvictable_setEvictable.trans ?_
    rw [if_pos rfl]
    simp [Page.markDirty]
  · exact fun _ _ => Iff.rfl

theorem read (h : p.Resident) (t : TransactionId) (q : PageId) : (p.read t q).2.Resident := by
  have hmiss : (p.afterMiss t).Resident := h.of_cache rfl rfl rfl
  rcases read_cases p t q with ⟨page, hq, hr⟩ | ⟨hq, ⟨e, hr⟩ | ⟨p', hroom, ⟨e, hr⟩ | ⟨stored, hs, hr⟩⟩⟩
  · rw [hr]
    have hactive : ({ p with active := p.active.insert t } : Pool).Resident := h.of_cache rfl rfl rfl
    exact hactive.hit (isCached_iff.2 ⟨page, hq⟩)
  · rwa [hr]
  · rw [hr]
    exact hmiss.makeRoom hroom
  · rw [hr]
    obtain ⟨d, rfl⟩ := Catalog.eq_ofStored_of_readPage hs
    refine (hmiss.makeRoom hroom).addClean ?_ rfl
    intro hcached
    obtain ⟨page, hpage⟩ := isCached_iff.1 (isCached_of_makeRoom hroom hcached)
    have habs : none = some page := hq.symm.trans hpage
    contradiction

theorem install (h : p.Resident) (hi : p.install t page = .ok p') : p'.Resident := by
  unfold Pool.install at hi
  split at hi
  · unfold Pool.makeRoomFor at hi
    split at hi
    · obtain rfl := Except.ok.inj hi
      exact h.addDirty t page
    · cases hroom : p.makeRoom with
      | error e => simp [hroom, Except.map] at hi
      | ok p₁ =>
        rw [hroom] at hi
        obtain rfl := Except.ok.inj hi
        exact (h.makeRoom hroom).addDirty t page
  · contradiction

/-! Completions and flushes put a clean page in place of a cached one. -/

theorem settlePage (h : p.Resident) (p₁ : Pool) (page : Page) (on : Bool)
    (hq : p.isCached page.id = true) (hclean : page.dirtiedBy = none)
    (hpages : p₁.pages = p.pages) (hrecency : p₁.recency = p.recency)
    (hon : on = true ↔ page.id ∉ p₁.unsynced)
    (hunsynced : ∀ r, r ≠ page.id → (r ∈ p₁.unsynced ↔ r ∈ p.unsynced)) :
    (p₁.settlePage page on).Resident := by
  have htracked := h.tracked_iff.2 hq
  refine h.put page.id page rfl ?_ ?_ ?_ ?_ ?_
  · intro r
    rw [← hpages]
    exact OrdMap.get?_insert _ _ _ _
  · intro r
    refine Recency.isTracked_setEvictable.trans ?_
    rw [hrecency]
    constructor
    · exact .inr
    · rintro (rfl | hr)
      · exact htracked
      · exact hr
  · intro r hr
    refine Recency.isEvictable_setEvictable.trans ?_
    rw [if_neg hr, hrecency]
  · refine Recency.isEvictable_setEvictable.trans ?_
    rw [if_pos rfl, hrecency]
    simp [htracked, hclean, hon, Pool.settlePage]
  · exact hunsynced

theorem mem_erase_of_ne (s : OrdSet PageId) {q r : PageId} (hr : r ≠ q) :
    r ∈ s.erase q ↔ r ∈ s := by
  rw [OrdSet.mem_erase]
  exact and_iff_right hr

theorem mem_insert_of_ne (s : OrdSet PageId) {q r : PageId} (hr : r ≠ q) :
    r ∈ s.insert q ↔ r ∈ s := by
  rw [OrdSet.mem_insert]
  exact or_iff_right hr

theorem not_mem_erase (s : OrdSet PageId) (q : PageId) : q ∉ s.erase q :=
  fun hm => (OrdSet.mem_erase.1 hm).1 rfl

theorem noteWritten_settlePage (h : p.Resident) (page : Page) (catalog : Catalog)
    (hq : p.isCached page.id = true) (hclean : page.dirtiedBy = none) :
    ((p.noteWritten page.id catalog).settlePage page true).Resident := by
  refine h.settlePage _ page true hq hclean rfl rfl ?_ fun r hr => mem_erase_of_ne _ hr
  exact iff_of_true rfl (not_mem_erase _ _)

theorem writeCommitted (h : p.Resident) (hq : p.isCached page.id = true) :
    (p.writeCommitted page).2.Resident := by
  unfold Pool.writeCommitted
  cases hw : p.catalog.writePage page with
  | ok catalog => exact h.noteWritten_settlePage page.committed catalog hq rfl
  | error e =>
    refine h.settlePage _ page.committed false hq rfl rfl rfl ?_ fun r hr => mem_insert_of_ne _ hr
    simp [OrdSet.mem_insert, Page.committed, Page.ofStored]

theorem rollBack (h : p.Resident) (hq : p.isCached page.id = true) :
    (p.rollBack page).2.Resident := by
  unfold Pool.rollBack
  split
  · rename_i hm
    cases hw : p.catalog.writePage page.beforeImage with
    | ok catalog => exact h.noteWritten_settlePage page.beforeImage catalog hq rfl
    | error e =>
      refine h.settlePage _ page.beforeImage false hq rfl rfl rfl ?_ fun _ _ => Iff.rfl
      exact iff_of_false Bool.false_ne_true fun hn => hn hm
  · rename_i hm
    refine h.settlePage _ page.beforeImage true hq rfl rfl rfl ?_ fun _ _ => Iff.rfl
    exact iff_of_true rfl hm

/-- Flushed bytes of an unfinished transaction are not the ones to fall back to. -/
theorem insert_unsynced (h : p.Resident) {p₁ : Pool} (hq : p.pages.get? q = some page)
    (hdirty : page.dirtiedBy ≠ none) (hpages : p₁.pages = p.pages)
    (hrecency : p₁.recency = p.recency)
    (hunsynced : ∀ r, r ≠ q → (r ∈ p₁.unsynced ↔ r ∈ p.unsynced)) : p₁.Resident := by
  refine h.put q page (h.id_eq hq) ?_ ?_ ?_ ?_ hunsynced
  · intro r
    rw [hpages]
    split
    · rename_i hr
      rw [hr, hq]
    · rfl
  · intro r
    rw [hrecency]
    constructor
    · exact .inr
    · rintro (rfl | hr)
      · exact h.tracked_iff.2 (isCached_iff.2 ⟨page, hq⟩)
      · exact hr
  · intro r _
    rw [hrecency]
  · rw [hrecency, h.evictable_iff]
    simp [hq, hdirty]

theorem flush (h : p.Resident) (q : PageId) : (p.flush q).2.Resident := by
  unfold Pool.flush
  cases hq : p.pages.get? q with
  | none => exact h
  | some page =>
    have hid := h.id_eq hq
    subst hid
    have hcached : p.isCached page.id = true := isCached_iff.2 ⟨page, hq⟩
    cases hown : page.dirtiedBy with
    | some owner =>
      simp only [hown, Pool.flushDirty]
      rcases logFlush_eq p owner page with ⟨result, journal, hlog⟩
      have hlogged : ({ p with journal } : Pool).Resident := h.of_cache rfl rfl rfl
      rw [hlog]
      cases result with
      | error e => exact hlogged
      | ok u =>
        simp only
        cases hw : p.catalog.writePage page with
        | error e => exact hlogged
        | ok catalog =>
          simp only
          split
          · refine h.insert_unsynced hq (by simp [hown]) rfl rfl ?_
            intro r hr
            exact (mem_insert_of_ne _ hr).trans (mem_erase_of_ne _ hr)
          · exact hlogged.noteWritten_settlePage page.committed catalog hcached rfl
    | none =>
      simp only [hown, Pool.flushClean]
      split
      · cases hw : p.catalog.writePage page with
        | error e => exact h
        | ok catalog => exact h.noteWritten_settlePage page catalog hcached hown
      · exact h

end Resident

end PagePool.Pool
