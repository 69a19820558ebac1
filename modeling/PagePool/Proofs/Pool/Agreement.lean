import PagePool.Pool.Tasks
import PagePool.Proofs.Lock.Frames
import PagePool.Proofs.Pool.Ledger
import PagePool.Proofs.Pool.Residency

namespace PagePool.Pool

/-- The pool holds what the ledger says. A cached page falls back to its committed bytes and, if it
is clean, has them; the changed pages are the pending ones, each under the exclusive lock of its
owner; and the store has the committed bytes of every page that is not unsynced. -/
structure Agrees (p : Pool) (l : Ledger) : Prop where
  locks : p.locks.Valid
  catalog : p.catalog.Sound
  resident : p.Resident
  before_eq : ∀ {q page}, p.pages.get? q = some page → page.before = l.committed q
  clean_eq : ∀ {q page}, p.pages.get? q = some page → page.dirtiedBy = none →
    page.data = l.committed q
  pending_iff : ∀ {t q d}, l.pending t q = some d ↔
    ∃ page, p.pages.get? q = some page ∧ page.dirtiedBy = some t ∧ page.data = d
  owner : ∀ {t q page}, p.pages.get? q = some page → page.dirtiedBy = some t →
    p.locks.isWriter t q = true ∧ p.isActive t = true
  stored_of_cached : ∀ {q}, p.isCached q = true → (p.catalog.stored? q).isSome = true
  stored_eq : ∀ {q d}, q ∉ p.unsynced → p.catalog.stored? q = some d → d = l.committed q
  zeros_of_absent : ∀ {q}, p.catalog.stored? q = none →
    l.committed q = Bytes.zeros p.catalog.pageSize

variable {p p' : Pool} {l l' : Ledger} {q r : PageId} {page stored : Page} {t u : TransactionId}
  {d : Bytes} {i : TableId} {heap : HeapTable}

/-- A new pool agrees with what its store has. -/
theorem agrees_make {capacity : Nat} {catalog : Catalog} {journal : Journal}
    (hs : catalog.Sound) (h : make capacity catalog journal = .ok p) :
    p.Agrees (.ofCatalog catalog) := by
  have hresident := resident_make h
  obtain ⟨-, rfl⟩ := make_eq_ok h
  constructor
  · exact LockTable.valid_empty
  · exact hs
  · exact hresident
  · nofun
  · nofun
  · intro t q d
    constructor
    · nofun
    · rintro ⟨page, hpage, -⟩
      contradiction
  · nofun
  · nofun
  · intro q d _ hq
    simp only at hq
    simp [Ledger.ofCatalog, hq]
  · intro q hq
    simp only at hq
    simp [Ledger.ofCatalog, hq]

namespace Agrees

/-- The journal, the counters and further active transactions do not matter. -/
theorem congr (h : p.Agrees l) (hpages : p'.pages = p.pages) (hrecency : p'.recency = p.recency)
    (hunsynced : p'.unsynced = p.unsynced) (hlocks : p'.locks = p.locks)
    (hcatalog : p'.catalog = p.catalog)
    (hactive : ∀ t, p.isActive t = true → p'.isActive t = true) : p'.Agrees l := by
  constructor
  · rw [hlocks]
    exact h.locks
  · rw [hcatalog]
    exact h.catalog
  · exact h.resident.of_cache hpages hrecency hunsynced
  · rw [hpages]
    exact h.before_eq
  · rw [hpages]
    exact h.clean_eq
  · rw [hpages]
    exact h.pending_iff
  · rw [hpages, hlocks]
    exact fun hq ht => (h.owner hq ht).imp_right (hactive _)
  · intro q hq
    rw [isCached, hpages] at hq
    rw [hcatalog]
    exact h.stored_of_cached hq
  · rw [hunsynced, hcatalog]
    exact h.stored_eq
  · rw [hcatalog]
    exact h.zeros_of_absent

/-- Locks may come and go, as long as every changed page keeps its owner's. -/
theorem withLocks (h : p.Agrees l) {locks : LockTable} (hv : locks.Valid)
    (hkeep : ∀ {t q page}, p.pages.get? q = some page → page.dirtiedBy = some t →
      locks.isWriter t q = true) : ({ p with locks } : Pool).Agrees l :=
  { h with
    locks := hv
    resident := h.resident.of_cache rfl rfl rfl
    owner := fun hq ht => ⟨hkeep hq ht, (h.owner hq ht).2⟩ }

/-- A page is put in place of what was cached under its id, and the ledger follows. -/
theorem put (h : p.Agrees l) (q : PageId) (page : Page) (hresident : p'.Resident)
    (hlocks : p'.locks = p.locks) (hactive : ∀ t, p.isActive t = true → p'.isActive t = true)
    (hpages : ∀ r, p'.pages.get? r = if r = q then some page else p.pages.get? r)
    (hcommitted : ∀ r, r ≠ q → l'.committed r = l.committed r)
    (hpending : ∀ t r, r ≠ q → l'.pending t r = l.pending t r)
    (hunsynced : ∀ r, r ≠ q → (r ∈ p'.unsynced ↔ r ∈ p.unsynced))
    (hbefore : page.before = l'.committed q)
    (hclean : page.dirtiedBy = none → page.data = l'.committed q)
    (hself : ∀ t d, l'.pending t q = some d ↔ page.dirtiedBy = some t ∧ page.data = d)
    (howner : ∀ t, page.dirtiedBy = some t → p.locks.isWriter t q = true ∧ p'.isActive t = true)
    (hcatalog : p'.catalog.Sound) (hsize : p'.catalog.pageSize = p.catalog.pageSize)
    (hstored : ∀ r, r ≠ q → p'.catalog.stored? r = p.catalog.stored? r)
    (hstore : ∃ d, p'.catalog.stored? q = some d ∧ (q ∉ p'.unsynced → d = l'.committed q)) :
    p'.Agrees l' := by
  obtain ⟨stored, hstore, hsynced⟩ := hstore
  -- every field splits into the page itself and the pages that stay as they were
  have hcases {r : PageId} {other : Page} (hr : p'.pages.get? r = some other) :
      r = q ∧ other = page ∨ r ≠ q ∧ p.pages.get? r = some other := by
    rw [hpages] at hr
    split at hr
    · exact .inl ⟨‹_›, (Option.some.inj hr).symm⟩
    · exact .inr ⟨‹_›, hr⟩
  constructor
  · rw [hlocks]
    exact h.locks
  · exact hcatalog
  · exact hresident
  · intro r other hr
    rcases hcases hr with ⟨rfl, rfl⟩ | ⟨hne, hr⟩
    · exact hbefore
    · rw [hcommitted r hne]
      exact h.before_eq hr
  · intro r other hr hnone
    rcases hcases hr with ⟨rfl, rfl⟩ | ⟨hne, hr⟩
    · exact hclean hnone
    · rw [hcommitted r hne]
      exact h.clean_eq hr hnone
  · intro t r d
    rw [hpages]
    by_cases hr : r = q
    · subst hr
      rw [hself]
      simp
    · rw [hpending t r hr, h.pending_iff, if_neg hr]
  · intro t r other hr ht
    rw [hlocks]
    rcases hcases hr with ⟨rfl, rfl⟩ | ⟨-, hr⟩
    · exact howner t ht
    · exact (h.owner hr ht).imp_right (hactive t)
  · intro r hr
    obtain ⟨other, hr⟩ := isCached_iff.1 hr
    rcases hcases hr with ⟨rfl, rfl⟩ | ⟨hne, hr⟩
    · rw [hstore]
      rfl
    · rw [hstored r hne]
      exact h.stored_of_cached (isCached_iff.2 ⟨other, hr⟩)
  · intro r d hr hd
    by_cases hne : r = q
    · subst hne
      rw [← hsynced hr]
      exact Option.some.inj (hd.symm.trans hstore)
    · rw [hcommitted r hne]
      exact h.stored_eq (fun hm => hr ((hunsynced r hne).2 hm)) (hstored r hne ▸ hd)
  · intro r hr
    by_cases hne : r = q
    · subst hne
      rw [hstore] at hr
      contradiction
    · rw [hcommitted r hne, hsize]
      exact h.zeros_of_absent (hstored r hne ▸ hr)

/-- The store has what is committed on a cached page, unless it has missed that. -/
theorem stored_of_synced (h : p.Agrees l) (hq : p.isCached q = true) (hsynced : q ∉ p.unsynced) :
    p.catalog.stored? q = some (l.committed q) := by
  obtain ⟨d, hd⟩ := Option.isSome_iff_exists.1 (h.stored_of_cached hq)
  rw [hd, h.stored_eq hsynced hd]

/-- What is pending stands in the cache, changed by its transaction. -/
theorem pending_eq_none_iff (h : p.Agrees l) :
    l.pending t q = none ↔ ∀ page, p.pages.get? q = some page → page.dirtiedBy ≠ some t := by
  rw [Option.eq_none_iff_forall_ne_some]
  constructor
  · intro hnone page hq ht
    exact hnone page.data (h.pending_iff.2 ⟨page, hq, ht, rfl⟩)
  · intro hnot d hsome
    obtain ⟨page, hq, ht, -⟩ := h.pending_iff.1 hsome
    exact hnot page hq ht

/-- A page whose lock a transaction holds is cached as the ledger has it for that transaction. -/
theorem eq_page (h : p.Agrees l) (hheld : p.locks.holds t q = true)
    (hq : p.pages.get? q = some page) : page = l.page t q := by
  have hparts : page = ⟨q, page.data, l.committed q, page.dirtiedBy⟩ := by
    rw [← h.resident.id_eq hq, ← h.before_eq (h.resident.id_eq hq ▸ hq)]
  cases hd : page.dirtiedBy with
  | some u =>
    -- a changed page belongs to the writer, and the holder can be nobody else
    obtain rfl : t = u := h.locks.eq_of_isWriter (h.owner hq hd).1 hheld
    have hpending : l.pending t q = some page.data := h.pending_iff.2 ⟨page, hq, hd, rfl⟩
    rw [Ledger.page, Ledger.view_eq_of_pending hpending, hpending, hparts, hd]
    rfl
  | none =>
    have hpending : l.pending t q = none := by
      apply h.pending_eq_none_iff.2
      intro other hother howner
      obtain rfl := Option.some.inj (hq.symm.trans hother)
      rw [hd] at howner
      contradiction
    have hdata := h.clean_eq hq hd
    rw [Ledger.page, Ledger.view_eq_of_not_pending hpending, hpending, hparts, hd, hdata]
    rfl

/-- No transaction can have set a page that another holds. -/
theorem pending_eq_none (h : p.Agrees l) (hheld : p.locks.holds u q = true) (hne : u ≠ t) :
    l.pending t q = none := by
  apply h.pending_eq_none_iff.2
  intro page hq ht
  exact hne (h.locks.eq_of_isWriter (h.owner hq ht).1 hheld)

/-- Who has set a page holds it. -/
theorem holds_of_pending (h : p.Agrees l) (hset : (l.pending t q).isSome = true) :
    p.locks.holds t q = true := by
  obtain ⟨d, hd⟩ := Option.isSome_iff_exists.1 hset
  obtain ⟨page, hq, ht, -⟩ := h.pending_iff.1 hd
  exact h.locks.holds_of_isWriter (h.owner hq ht).1

theorem pending_eq_none_of_free (h : p.Agrees l) (hfree : p.locks.holds t q = false) :
    l.pending t q = none := by
  rw [← Option.not_isSome_iff_eq_none]
  intro hset
  rw [h.holds_of_pending hset] at hfree
  contradiction

/-- An eviction takes a clean page whose bytes the store has. -/
theorem evict (h : p.Agrees l) (he : p.evict = .ok p') : p'.Agrees l := by
  have hresident := h.resident.evict he
  obtain ⟨victim, hon, rfl⟩ := evict_eq_ok he
  obtain ⟨gone, hgone, hclean, -⟩ := h.resident.evictable_iff.1 hon
  have hget (r : PageId) :
      (p.pages.erase victim).get? r = if r = victim then none else p.pages.get? r :=
    OrdMap.get?_erase _ _ _
  have hold {r : PageId} {other : Page} (hr : (p.pages.erase victim).get? r = some other) :
      p.pages.get? r = some other := by
    rw [hget] at hr
    split at hr
    · contradiction
    · exact hr
  have hcached {r : PageId} (hr : (p.pages.erase victim).contains r = true) :
      p.isCached r = true := by
    obtain ⟨other, hr⟩ := Option.isSome_iff_exists.1 hr
    exact isCached_iff.2 ⟨other, hold hr⟩
  refine { h with
    resident := hresident
    before_eq := fun hr => h.before_eq (hold hr)
    clean_eq := fun hr => h.clean_eq (hold hr)
    pending_iff := ?_
    owner := fun hr => h.owner (hold hr)
    stored_of_cached := fun hr => h.stored_of_cached (hcached hr) }
  intro t r d
  rw [h.pending_iff]
  constructor
  · rintro ⟨other, hr, ht, hd⟩
    refine ⟨other, ?_, ht, hd⟩
    rw [hget, if_neg]
    · exact hr
    · -- the victim was clean
      rintro rfl
      obtain rfl := Option.some.inj (hgone.symm.trans hr)
      rw [hclean] at ht
      contradiction
  · rintro ⟨other, hr, hrest⟩
    exact ⟨other, hold hr, hrest⟩

theorem makeRoom (h : p.Agrees l) (he : p.makeRoom = .ok p') : p'.Agrees l := by
  rcases makeRoom_eq_ok he with rfl | he
  · exact h
  · exact h.evict he

/-- A page that is read from the store while it is not cached has its committed bytes. -/
theorem addClean (h : p.Agrees l) (hq : p.isCached q ≠ true)
    (hr : p.catalog.readPage q = .ok stored) : (p.addClean stored).Agrees l := by
  obtain ⟨d, hstore, rfl⟩ := Catalog.readPage_eq_ok h.catalog hr
  have hsynced : q ∉ p.unsynced := fun hm => hq (h.resident.cached_of_unsynced hm)
  obtain rfl := h.stored_eq hsynced hstore
  have hpending (t : TransactionId) : l.pending t q = none := by
    apply h.pending_eq_none_iff.2
    intro page hpage
    exact absurd (isCached_iff.2 ⟨page, hpage⟩) hq
  refine h.put q (Page.ofStored q (l.committed q)) (h.resident.addClean hq rfl) rfl
    (fun _ => id) (fun r => OrdMap.get?_insert _ _ _ _) (fun _ _ => rfl) (fun _ _ _ => rfl)
    (fun _ _ => Iff.rfl) rfl (fun _ => rfl) ?_ ?_ h.catalog rfl (fun _ _ => rfl)
    ⟨_, hstore, fun _ => rfl⟩
  · intro t d
    rw [hpending]
    constructor
    · nofun
    · rintro ⟨ht, -⟩
      contradiction
  · nofun

theorem read (h : p.Agrees l) (t : TransactionId) (q : PageId) : (p.read t q).2.Agrees l := by
  have hactive (u : TransactionId) (hu : p.isActive u = true) :
      (p.active.insert t).contains u = true := OrdSet.mem_insert.2 (.inr hu)
  have hmiss : (p.afterMiss t).Agrees l := h.congr rfl rfl rfl rfl rfl hactive
  rcases read_cases p t q with ⟨page, hq, hr⟩ | ⟨hq, ⟨e, hr⟩ | ⟨p', hroom, ⟨e, hr⟩ | ⟨stored, hs, hr⟩⟩⟩
  · have hresident := h.resident.read t q
    rw [hr] at hresident ⊢
    have hactivated : ({ p with active := p.active.insert t } : Pool).Agrees l :=
      h.congr rfl rfl rfl rfl rfl hactive
    exact { hactivated with resident := hresident }
  · rwa [hr]
  · rw [hr]
    exact hmiss.makeRoom hroom
  · rw [hr]
    refine (hmiss.makeRoom hroom).addClean ?_ hs
    intro hcached
    obtain ⟨page, hpage⟩ := isCached_iff.1 (isCached_of_makeRoom hroom hcached)
    have habs : none = some page := hq.symm.trans hpage
    contradiction

/-- A changed page is put in place of its owner's copy. -/
theorem addDirty (h : p.Agrees l) {old : Page} (hq : p.pages.get? page.id = some old)
    (hbefore : page.before = l.committed page.id) (hw : p.locks.isWriter t page.id = true)
    (ht : p.isActive t = true) : (p.addDirty t page).Agrees (l.set t page.id page.data) := by
  have hcached : p.isCached page.id = true := isCached_iff.2 ⟨old, hq⟩
  obtain ⟨d, hstore⟩ := Option.isSome_iff_exists.1 (h.stored_of_cached hcached)
  refine h.put page.id (page.markDirty t) (h.resident.addDirty t page) rfl (fun _ => id)
    (fun r => OrdMap.get?_insert _ _ _ _) (fun _ _ => rfl) ?_ (fun _ _ => Iff.rfl) hbefore nofun
    ?_ ?_ h.catalog rfl (fun _ _ => rfl) ⟨d, hstore, fun hs => h.stored_eq hs hstore⟩
  · intro u r hr
    simp [Ledger.set, hr]
  · intro u d
    have hother (hu : u ≠ t) : l.pending u page.id = none :=
      h.pending_eq_none (h.locks.holds_of_isWriter hw) (Ne.symm hu)
    by_cases hu : u = t
    · simp [Ledger.set, hu, Page.markDirty]
    · simp [Ledger.set, hu, hother hu, Page.markDirty, Ne.symm hu]
  · intro u hu
    obtain rfl : t = u := Option.some.inj hu
    exact ⟨hw, ht⟩

/-- A table may gain zero pages; what is stored stays. -/
theorem withCatalog (h : p.Agrees l) {catalog : Catalog} (hs : catalog.Sound)
    (hsize : catalog.pageSize = p.catalog.pageSize)
    (hstored : ∀ q, catalog.stored? q = p.catalog.stored? q ∨
      p.catalog.stored? q = none ∧ catalog.stored? q = some (Bytes.zeros p.catalog.pageSize)) :
    ({ p with catalog } : Pool).Agrees l := by
  refine { h with
    catalog := hs
    resident := h.resident.of_cache rfl rfl rfl
    stored_of_cached := ?_
    stored_eq := ?_
    zeros_of_absent := ?_ }
  · intro q hq
    have hsome := h.stored_of_cached hq
    rcases hstored q with hsame | ⟨hnone, -⟩
    · simpa only [hsame] using hsome
    · rw [hnone] at hsome
      contradiction
  · intro q d hq hd
    rcases hstored q with hsame | ⟨hnone, hzero⟩
    · exact h.stored_eq hq (hsame.symm.trans hd)
    · rw [h.zeros_of_absent hnone]
      exact Option.some.inj (hd.symm.trans hzero)
  · intro q hq
    rw [hsize]
    rcases hstored q with hsame | ⟨hnone, -⟩
    · exact h.zeros_of_absent (hsame.symm.trans hq)
    · exact h.zeros_of_absent hnone

end Agrees

end PagePool.Pool
