import PagePool.Proofs.Pool.Bounds

namespace PagePool

namespace Pool

/-- What becomes of a pool as pages are read and installed, and transactions and flushes complete, with
the pages that were handed out or installed, the latest first. Whatever else uses the locks, the
store or the log may do so at any time. -/
inductive Serves (start : Pool) : Pool → List PageId → Prop where
  | refl : Serves start start []
  | read {p p' uses t q page} : Serves start p uses → p.read t q = (.ok page, p') →
      Serves start p' (q :: uses)
  | readFails {p p' uses t q e} : Serves start p uses → p.read t q = (.error e, p') →
      Serves start p' uses
  | install {p p' uses t page} : Serves start p uses → p.install t page = .ok p' →
      Serves start p' (page.id :: uses)
  | complete {p uses} (t commit) : Serves start p uses → Serves start (p.complete t commit).2 uses
  | flush {p uses} (q) : Serves start p uses → Serves start (p.flush q).2 uses
  | discard {p uses} (q) : Serves start p uses → Serves start (p.discard q) uses
  | other {p p' uses} : Serves start p uses → p'.pages = p.pages → p'.recency = p.recency →
      p'.unsynced = p.unsynced → p'.capacity = p.capacity → Serves start p' uses

/-- How many uses of pages have come since a page was last used. -/
def age (uses : List PageId) (q : PageId) : Nat := uses.idxOf q

/-- The cache lists its pages in the order in which they were last used. -/
structure InOrder (p : Pool) (uses : List PageId) : Prop where
  bounded : p.Bounded
  used : ∀ q ∈ p.recency.pages, q ∈ uses
  sorted : p.recency.pages.Pairwise fun older newer => age uses newer < age uses older

/-- The pages of the cache stay in their order, and nothing is counted as missed or evicted. -/
structure Rests (p p' : Pool) : Prop where
  pages_eq : p'.recency.pages = p.recency.pages
  capacity_eq : p'.capacity = p.capacity
  misses_eq : p'.stats.misses = p.stats.misses
  evictions_eq : p'.stats.evictions = p.stats.evictions

/-- One page has left the cache, and all others are as they were: of the pages that might have gone it is
the one that was last used longest ago. -/
structure Evicts (p p' : Pool) (uses : List PageId) (victim : PageId) : Prop where
  cached : p.isCached victim = true
  not_pinned : ¬ p.Pinned victim
  gone : p'.isCached victim = false
  others_stay : ∀ {q page}, p.pages.get? q = some page → q ≠ victim → p'.pages.get? q = some page
  used : victim ∈ uses
  oldest : ∀ {q}, p.isCached q = true → ¬ p.Pinned q → q ≠ victim → age uses q < age uses victim

variable {start p p' p'' : Pool} {uses : List PageId} {q r : PageId} {page : Page} {t : TransactionId}

/-! Uses of pages, and the order they leave. -/

@[simp] theorem age_cons_self (q : PageId) (uses : List PageId) : age (q :: uses) q = 0 :=
  List.idxOf_cons_self

theorem age_cons_of_ne (h : q ≠ r) (uses : List PageId) : age (r :: uses) q = age uses q + 1 :=
  List.idxOf_cons_ne uses h.symm

namespace InOrder

theorem of_sublist (h : p.InOrder uses) (hb : p'.Bounded)
    (hs : p'.recency.pages.Sublist p.recency.pages) : p'.InOrder uses :=
  ⟨hb, fun q hq => h.used q (hs.subset hq), h.sorted.sublist hs⟩

/-- A page that is used becomes the youngest, and all others age alike. -/
theorem use (h : p.InOrder uses) (hb : p'.Bounded)
    (hs : p'.recency.pages = p.recency.pages.filter (fun r => r != q) ++ [q]) :
    p'.InOrder (q :: uses) := by
  have hold {r : PageId} (hr : r ∈ p.recency.pages.filter fun r => r != q) :
      r ∈ p.recency.pages ∧ r ≠ q := by simpa using hr
  refine ⟨hb, ?_, ?_⟩
  · intro r hr
    rw [hs, List.mem_append, List.mem_singleton] at hr
    rcases hr with hr | rfl
    · exact List.mem_cons_of_mem _ (h.used r (hold hr).1)
    · exact List.mem_cons_self
  · rw [hs, List.pairwise_append]
    refine ⟨?_, List.pairwise_singleton _ _, ?_⟩
    · -- all pages but the one that is used age by one use, so their order stays
      refine (h.sorted.filter _).imp_of_mem ?_
      intro older newer holder hnewer hage
      rw [age_cons_of_ne (hold holder).2, age_cons_of_ne (hold hnewer).2]
      omega
    · intro older holder newer hnewer
      obtain rfl := List.mem_singleton.1 hnewer
      rw [age_cons_self, age_cons_of_ne (hold holder).2]
      omega

end InOrder

/-- Making room drops pages from the order, and moves none. -/
theorem sublist_makeRoom (h : p.makeRoom = .ok p') :
    p'.recency.pages.Sublist p.recency.pages := by
  rcases makeRoom_eq_ok h with rfl | he
  · exact List.Sublist.refl _
  · obtain ⟨victim, -, rfl⟩ := evict_eq_ok he
    exact (Recency.pages_remove _ _).symm ▸ List.filter_sublist

theorem InOrder.makeRoom (h : p.InOrder uses) (hm : p.makeRoom = .ok p') : p'.InOrder uses :=
  h.of_sublist (Rereads.makeRoom h.bounded hm).1.bounded (sublist_makeRoom hm)

theorem InOrder.afterMiss (h : p.InOrder uses) (t : TransactionId) : (p.afterMiss t).InOrder uses :=
  have hsame : Rereads p (p.afterMiss t) := .of_cache h.bounded rfl rfl rfl rfl
  h.of_sublist hsame.bounded (List.Sublist.refl _)

/-- A read that succeeds is a use of its page; one that fails is none. -/
theorem InOrder.read (h : p.InOrder uses) (t : TransactionId) (q : PageId) :
    match p.read t q with
    | (.ok _, p') => p'.InOrder (q :: uses)
    | (.error _, p') => p'.InOrder uses := by
  have hbounded := (Rereads.read h.bounded t q).bounded
  have hmiss := h.afterMiss t
  rcases read_cases p t q with ⟨page, -, hr⟩ | ⟨-, ⟨e, hr⟩ | ⟨k, hroom, ⟨e, hr⟩ | ⟨stored, hs, hr⟩⟩⟩
  · rw [hr] at hbounded ⊢
    exact h.use hbounded (Recency.pages_access _ _)
  · rw [hr]
    exact hmiss
  · rw [hr]
    exact hmiss.makeRoom hroom
  · rw [hr] at hbounded ⊢
    obtain ⟨d, rfl⟩ := Catalog.eq_ofStored_of_readPage hs
    refine (hmiss.makeRoom hroom).use hbounded ?_
    exact (Recency.pages_setEvictable _ _ _).trans (Recency.pages_access _ _)

theorem InOrder.install (h : p.InOrder uses) (hi : p.install t page = .ok p') :
    p'.InOrder (page.id :: uses) := by
  have hbounded := (Spares.install h.bounded hi).bounded
  have hdirty {k : Pool} (hk : k.InOrder uses) (hb : (k.addDirty t page).Bounded) :
      (k.addDirty t page).InOrder (page.id :: uses) :=
    hk.use hb ((Recency.pages_setEvictable _ _ _).trans (Recency.pages_access _ _))
  unfold Pool.install makeRoomFor at hi
  split at hi
  · split at hi
    · obtain rfl := Except.ok.inj hi
      exact hdirty h hbounded
    · cases hroom : p.makeRoom with
      | error e => simp [hroom, Except.map] at hi
      | ok k =>
        rw [hroom] at hi
        obtain rfl := Except.ok.inj hi
        exact hdirty (h.makeRoom hroom) hbounded
  · contradiction

/-! Completions and flushes use no page. -/

namespace Rests

theorem refl (p : Pool) : Rests p p := ⟨rfl, rfl, rfl, rfl⟩

theorem trans (h : Rests p p') (h' : Rests p' p'') : Rests p p'' :=
  ⟨h'.pages_eq.trans h.pages_eq, h'.capacity_eq.trans h.capacity_eq,
    h'.misses_eq.trans h.misses_eq, h'.evictions_eq.trans h.evictions_eq⟩

theorem settlePage (h : Rests p p') (page : Page) (on : Bool) : Rests p (p'.settlePage page on) :=
  h.trans ⟨Recency.pages_setEvictable _ _ _, rfl, rfl, rfl⟩

theorem writeCommitted (p : Pool) (page : Page) : Rests p (p.writeCommitted page).2 := by
  unfold Pool.writeCommitted
  split
  · refine settlePage ?_ _ _
    exact ⟨rfl, rfl, rfl, rfl⟩
  · refine settlePage ?_ _ _
    exact ⟨rfl, rfl, rfl, rfl⟩

theorem rollBack (p : Pool) (page : Page) : Rests p (p.rollBack page).2 := by
  unfold Pool.rollBack
  split
  · split
    · refine settlePage ?_ _ _
      exact ⟨rfl, rfl, rfl, rfl⟩
    · exact (refl p).settlePage _ _
  · exact (refl p).settlePage _ _

theorem complete (p : Pool) (t : TransactionId) (commit : Bool) :
    Rests p (p.complete t commit).2 := by
  have heach {handle : Pool → Page → Except Error Unit × Pool}
      (hstep : ∀ p page, Rests p (handle p page).2) {k : Pool} (hk : Rests p k)
      (pages : List Page) : Rests p (forEachPage handle k pages).2 :=
    forEachPage_preserves (P := Rests p) (fun k page h => h.trans (hstep k page)) hk pages
  cases commit with
  | true =>
    obtain ⟨result, journal, hlog⟩ := logCommit_eq p t
    simp only [Pool.complete, if_true, commit, hlog]
    cases result with
    | error e => exact ⟨rfl, rfl, rfl, rfl⟩
    | ok u =>
      have hwritten := heach writeCommitted (k := { p with journal }) ⟨rfl, rfl, rfl, rfl⟩
        (p.dirtiedBy t)
      exact hwritten.trans ⟨rfl, rfl, rfl, rfl⟩
  | false =>
    simp only [Pool.complete, Bool.false_eq_true, if_false, abort]
    split
    · have hrestored := heach rollBack (refl p) (p.dirtiedBy t)
      generalize forEachPage Pool.rollBack p (p.dirtiedBy t) = restored at hrestored
      refine hrestored.trans ?_
      cases restored.2.journal.append (.abort t) <;> exact ⟨rfl, rfl, rfl, rfl⟩
    · exact ⟨rfl, rfl, rfl, rfl⟩

theorem flush (p : Pool) (q : PageId) : Rests p (p.flush q).2 := by
  unfold Pool.flush
  split
  · exact refl p
  · rename_i page _
    split
    · rename_i owner _
      obtain ⟨result, journal, hlog⟩ := logFlush_eq p owner page
      simp only [flushDirty, hlog]
      cases result with
      | error e => exact ⟨rfl, rfl, rfl, rfl⟩
      | ok u =>
        simp only
        split
        · exact ⟨rfl, rfl, rfl, rfl⟩
        · split
          · exact ⟨rfl, rfl, rfl, rfl⟩
          · refine settlePage ?_ _ _
            exact ⟨rfl, rfl, rfl, rfl⟩
    · unfold flushClean
      split
      · split
        · exact refl p
        · refine settlePage ?_ _ _
          exact ⟨rfl, rfl, rfl, rfl⟩
      · exact refl p

theorem flushEach (p : Pool) (qs : List PageId) : Rests p (p.flushEach qs).2 :=
  flushEach_preserves (P := Rests p) (fun q h => h.trans (flush _ q)) (refl p) qs

end Rests

theorem InOrder.discard (h : p.InOrder uses) (q : PageId) : (p.discard q).InOrder uses := by
  have hresident := h.bounded.resident.discard q
  unfold Pool.discard at hresident ⊢
  split
  · rename_i hcached
    rw [if_pos hcached] at hresident
    have hsmaller := OrdMap.size_erase_lt hcached
    have hsize : (p.pages.erase q).size ≤ p.capacity := by have := h.bounded.size_le; omega
    exact h.of_sublist ⟨hresident, hsize⟩ (Recency.pages_remove _ _ ▸ List.filter_sublist)
  · exact h

theorem inOrder_make {capacity : Nat} {catalog : Catalog} {journal : Journal}
    (h : make capacity catalog journal = .ok p) : p.InOrder [] := by
  have hbounded := (bounded_make h).1
  obtain ⟨-, rfl⟩ := make_eq_ok h
  exact ⟨hbounded, nofun, List.Pairwise.nil⟩

/-- The cache stays in the order of use, whatever happens to the pool. -/
theorem Serves.inOrder (h : start.Serves p uses) (hstart : start.InOrder []) :
    p.InOrder uses ∧ p.capacity = start.capacity := by
  -- reads and installs alone move a page in the order: the others leave it, or drop pages from it
  induction h with
  | refl => exact ⟨hstart, rfl⟩
  | @read p p' uses t q page _ hr ih =>
    have horder := ih.1.read t q
    have hcapacity := (Rereads.read ih.1.bounded t q).capacity_eq
    rw [hr] at horder hcapacity
    exact ⟨horder, hcapacity.trans ih.2⟩
  | @readFails p p' uses t q e _ hr ih =>
    have horder := ih.1.read t q
    have hcapacity := (Rereads.read ih.1.bounded t q).capacity_eq
    rw [hr] at horder hcapacity
    exact ⟨horder, hcapacity.trans ih.2⟩
  | install _ hi ih =>
    exact ⟨ih.1.install hi, (Spares.install ih.1.bounded hi).capacity_eq.trans ih.2⟩
  | @complete p uses t commit _ ih =>
    have hrecaches := Recaches.complete ih.1.bounded.resident t commit
    refine ⟨ih.1.of_sublist (hrecaches.bounded ih.1.bounded.size_le) ?_,
      hrecaches.capacity_eq.trans ih.2⟩
    exact (Rests.complete p t commit).pages_eq ▸ List.Sublist.refl _
  | @flush p uses q _ ih =>
    have hrecaches := Recaches.flush ih.1.bounded.resident q
    refine ⟨ih.1.of_sublist (hrecaches.bounded ih.1.bounded.size_le) ?_,
      hrecaches.capacity_eq.trans ih.2⟩
    exact (Rests.flush p q).pages_eq ▸ List.Sublist.refl _
  | @discard p uses q _ ih =>
    refine ⟨ih.1.discard q, Eq.trans ?_ ih.2⟩
    unfold Pool.discard
    split <;> rfl
  | @other p p' uses _ hpages hrecency hunsynced hcapacity ih =>
    have hbounded := (Rereads.of_cache ih.1.bounded hpages hrecency hunsynced hcapacity).bounded
    exact ⟨ih.1.of_sublist hbounded (hrecency ▸ List.Sublist.refl _), hcapacity.trans ih.2⟩

/-! What makes room. -/

theorem Resident.evictable_iff_not_pinned (h : p.Resident) :
    p.recency.isEvictable q = true ↔ p.isCached q = true ∧ ¬ p.Pinned q := by
  rw [h.evictable_iff, isCached_iff]
  constructor
  · rintro ⟨page, hq, hclean, hsynced⟩
    refine ⟨⟨page, hq⟩, ?_⟩
    rintro ⟨other, hother, hpin⟩
    obtain rfl := Option.some.inj (hq.symm.trans hother)
    exact hpin.elim (fun hd => hd hclean) hsynced
  · rintro ⟨⟨page, hq⟩, hfree⟩
    refine ⟨page, hq, ?_, ?_⟩
    · by_contra hd
      exact hfree ⟨page, hq, .inl hd⟩
    · exact fun hm => hfree ⟨page, hq, .inr hm⟩

/-- No room can be made just if the cache is full of pages that must stay. -/
theorem makeRoom_eq_error (h : p.Bounded) {e : Error} : p.makeRoom = .error e ↔
    e = .storageExhausted p.capacity ∧ p.pages.size = p.capacity ∧
      ∀ q, p.isCached q = true → p.Pinned q := by
  have hpinned : (∀ q, p.recency.isEvictable q ≠ true) ↔ ∀ q, p.isCached q = true → p.Pinned q := by
    refine forall_congr' fun q => ?_
    rw [ne_eq, h.resident.evictable_iff_not_pinned, not_and, not_not]
  have hsize := h.size_le
  unfold makeRoom
  split
  · rename_i hroom
    refine iff_of_false nofun ?_
    rintro ⟨-, hfull, -⟩
    omega
  · rename_i hfull
    rw [← hpinned, ← Recency.victim?_eq_none]
    have hfull : p.pages.size = p.capacity := by omega
    unfold evict Recency.evict
    cases p.recency.victim? with
    | none => simp [hfull, eq_comm]
    | some victim => simp

/-- The victim is the page that has waited longest of those that may go. -/
theorem InOrder.evicts (h : p.InOrder uses) (he : p.evict = .ok p') :
    ∃ victim, p.Evicts p' uses victim := by
  have hresident := h.bounded.resident
  unfold Pool.evict Recency.evict at he
  cases hv : p.recency.victim? with
  | none => simp [hv] at he
  | some victim =>
    obtain ⟨hcached, hfree⟩ :=
      hresident.evictable_iff_not_pinned.1 (Recency.isEvictable_of_victim hv)
    simp only [hv] at he
    obtain rfl := Except.ok.inj he
    refine ⟨victim, hcached, hfree, ?_, ?_, ?_, ?_⟩
    · simp [isCached, OrdMap.contains, OrdMap.get?_erase]
    · intro q page hq hne
      exact (OrdMap.get?_erase _ _ _).trans ((if_neg hne).trans hq)
    · exact h.used victim (Recency.mem_pages.2 (hresident.tracked_iff.2 hcached))
    · intro q hq hpin hne
      exact Recency.victim_first h.sorted hv (hresident.evictable_iff_not_pinned.2 ⟨hq, hpin⟩) hne

/-- No store answers that the cache is full. -/
theorem readPage_ne_storageExhausted (c : Catalog) (q : PageId) (n : Nat) :
    c.readPage q ≠ .error (.storageExhausted n) := by
  intro he
  unfold Catalog.readPage at he
  cases ht : c.table q.table with
  | error e =>
    rw [ht, (Catalog.table_eq_error ht).2] at he
    cases he
  | ok heap =>
    simp only [ht, HeapTable.readPage, HeapTable.checkPage] at he
    split at he
    · cases he
    · by_cases hid : q.table = heap.id
      · simp only [hid, if_true, PageFile.read, PageFile.checkRange] at he
        by_cases hn : q.pageNo < heap.file.pageCount
        · simp only [hn, if_true] at he
          split at he <;> cases he
        · simp only [hn, if_false] at he
          cases he
      · simp only [hid, if_false] at he
        cases he

theorem catalog_makeRoom (h : p.makeRoom = .ok p') : p'.catalog = p.catalog := by
  rcases makeRoom_eq_ok h with rfl | he
  · rfl
  · obtain ⟨victim, -, rfl⟩ := evict_eq_ok he
    rfl

theorem read_exhausted_iff (h : p.Bounded) (t : TransactionId) (q : PageId) :
    (p.read t q).1 = .error (.storageExhausted p.capacity) ↔
      p.isCached q = false ∧ p.pages.size = p.capacity ∧ ∀ r, p.isCached r = true → p.Pinned r := by
  have hmiss : Rereads p (p.afterMiss t) := .of_cache h rfl rfl rfl rfl
  cases hq : p.pages.get? q with
  | some page =>
    refine iff_of_false ?_ ?_
    · simp [read, hq]
    · rintro ⟨hcached, -⟩
      cases hq.symm.trans (isCached_eq_false.1 hcached)
  | none =>
    have hcached : p.isCached q = false := isCached_eq_false.2 hq
    rw [read_of_absent hq]
    cases hroom : (p.afterMiss t).makeRoom with
    | error e =>
      obtain ⟨rfl, hfull⟩ := (makeRoom_eq_error hmiss.bounded).1 hroom
      exact iff_of_true rfl ⟨hcached, hfull⟩
    | ok k =>
      refine iff_of_false ?_ ?_
      · have hstore := readPage_ne_storageExhausted k.catalog q p.capacity
        cases hr : k.catalog.readPage q with
        | error e => simpa [hr] using hstore
        | ok stored => simp [hr]
      · rintro ⟨-, hfull⟩
        cases hroom.symm.trans ((makeRoom_eq_error hmiss.bounded).2 ⟨rfl, hfull⟩)

theorem read_of_exhausted (h : p.Bounded)
    (hr : (p.read t q).1 = .error (.storageExhausted p.capacity)) :
    (p.read t q).2 = p.afterMiss t := by
  have hmiss : Rereads p (p.afterMiss t) := .of_cache h rfl rfl rfl rfl
  obtain ⟨hcached, hfull⟩ := (read_exhausted_iff h t q).1 hr
  have hroom := (makeRoom_eq_error hmiss.bounded).2 ⟨rfl, hfull⟩
  rw [read_of_absent (isCached_eq_false.1 hcached), hroom]

/-- Given a place in the cache, a page of the store can be read. -/
theorem read_of_stored {stored : Page} (h : p.Bounded) (hs : p.catalog.readPage q = .ok stored)
    (hroom : (p.read t q).1 ≠ .error (.storageExhausted p.capacity)) :
    (p.read t q).1 = .ok ((p.pages.get? q).getD stored) := by
  have hmiss : Rereads p (p.afterMiss t) := .of_cache h rfl rfl rfl rfl
  cases hq : p.pages.get? q with
  | some page => simp [read, hq]
  | none =>
    rw [read_of_absent hq] at hroom ⊢
    cases hk : (p.afterMiss t).makeRoom with
    | error e =>
      obtain ⟨rfl, -⟩ := (makeRoom_eq_error hmiss.bounded).1 hk
      rw [hk] at hroom
      exact absurd rfl hroom
    | ok k =>
      have hstore : k.catalog.readPage q = .ok stored := by rw [catalog_makeRoom hk]; exact hs
      simp [hstore]

theorem Evicts.of_cache {k : Pool} {victim : PageId} (h : k.Evicts p' uses victim)
    (hpages : p.pages = k.pages) (hunsynced : p.unsynced = k.unsynced) :
    p.Evicts p' uses victim := by
  have hcached (q : PageId) : p.isCached q = k.isCached q :=
    congrArg (fun m : OrdMap PageId Page => m.contains q) hpages
  have hpinned (q : PageId) : p.Pinned q ↔ k.Pinned q := by
    unfold Pinned
    rw [hpages, hunsynced]
  refine ⟨(hcached victim).trans h.cached, fun hp => h.not_pinned ((hpinned victim).1 hp), h.gone,
    ?_, h.used, ?_⟩
  · rw [hpages]
    exact h.others_stay
  · intro q hq hp
    exact h.oldest ((hcached q).symm.trans hq) fun hk => hp ((hpinned q).2 hk)

theorem Evicts.addClean {victim : PageId} (h : p.Evicts p' uses victim)
    (hq : p.isCached page.id = false) : p.Evicts (p'.addClean page) uses victim := by
  have hpages (r : PageId) :
      (p'.addClean page).pages.get? r = if r = page.id then some page else p'.pages.get? r :=
    OrdMap.get?_insert _ _ _ _
  have hne {r : PageId} (hr : p.isCached r = true) : r ≠ page.id := by
    rintro rfl
    rw [hq] at hr
    contradiction
  refine ⟨h.cached, h.not_pinned, ?_, ?_, h.used, h.oldest⟩
  · rw [isCached, OrdMap.contains, hpages, if_neg (hne h.cached)]
    exact h.gone
  · intro r other hr hvictim
    rw [hpages, if_neg (hne (isCached_iff.2 ⟨other, hr⟩))]
    exact h.others_stay hr hvictim

/-- A read takes no page out of the cache, or the one that has waited longest. -/
theorem InOrder.read_drops (h : p.InOrder uses) (t : TransactionId) (q : PageId) :
    (∀ r page, p.pages.get? r = some page → (p.read t q).2.pages.get? r = some page) ∨
      ∃ victim, p.Evicts (p.read t q).2 uses victim := by
  have hroom {k : Pool} (hk : (p.afterMiss t).makeRoom = .ok k) :
      k = p.afterMiss t ∨ ∃ victim, p.Evicts k uses victim := by
    rcases makeRoom_eq_ok hk with rfl | he
    · exact .inl rfl
    · obtain ⟨victim, hv⟩ := (h.afterMiss t).evicts he
      exact .inr ⟨victim, hv.of_cache rfl rfl⟩
  cases hq : p.pages.get? q with
  | some page =>
    refine .inl fun r other hr => ?_
    simp only [Pool.read, hq]
    exact hr
  | none =>
    rw [read_of_absent hq]
    cases hk : (p.afterMiss t).makeRoom with
    | error e => exact .inl fun _ _ => id
    | ok k =>
      have hdrops := hroom hk
      simp only
      cases hr : k.catalog.readPage q with
      | error e =>
        rcases hdrops with rfl | hdrops
        · exact .inl fun _ _ => id
        · exact .inr hdrops
      | ok stored =>
        obtain ⟨d, rfl⟩ := Catalog.eq_ofStored_of_readPage hr
        have hcached : p.isCached q = false := isCached_eq_false.2 hq
        rcases hdrops with rfl | ⟨victim, hv⟩
        · refine .inl fun r other hother => ?_
          refine (OrdMap.get?_insert _ _ _ _).trans ((if_neg ?_).trans hother)
          rintro rfl
          cases hq.symm.trans hother
        · exact .inr ⟨victim, hv.addClean hcached⟩

/-- A fetch whose lock is granted ends with what it reads, if the table of the page is known. -/
theorem runCall_fetch {r : LockRequest} {locks : LockTable}
    (ha : p.locks.acquire r = (.granted, locks)) (n : Nat) :
    p.runCall (n + 1) ⟨r, .fetch⟩ =
      (.ended ((({ p with locks } : Pool).read r.tid r.page).1 >>= fun page =>
        (p.catalog.table r.page.table).map fun _ => .page page),
      (({ p with locks } : Pool).read r.tid r.page).2) := by
  rcases ho : ({ p with locks } : Pool).read r.tid r.page with ⟨found, k⟩
  obtain ⟨-, hcatalog, -⟩ := read_frame ho
  have hobtain : ({ p with locks } : Pool).obtain r Task.fetch.source = (found, k) := ho
  simp only [runCall, ha, resume, hobtain]
  cases found with
  | error e => rfl
  | ok page =>
    simp only [hcatalog]
    cases p.catalog.table r.page.table <;> rfl

/-- A fetch finds no place for its page just if its read does. -/
theorem fetch_eq_exhausted_iff (c : Catalog) (i : TableId) (found : Except Error Page) (n : Nat) :
    (found >>= fun page => (c.table i).map fun _ => Answer.page page) =
        .error (.storageExhausted n) ↔
      found = .error (.storageExhausted n) := by
  cases found with
  | error e => simp [bind, Except.bind]
  | ok page =>
    cases ht : c.table i with
    | error e => simp [bind, Except.bind, Except.map, (Catalog.table_eq_error ht).2]
    | ok heap => simp [bind, Except.bind, Except.map]

/-! Whatever callers do is made of these uses. -/

namespace Serves

theorem obtain {source : PageSource} {request : LockRequest} {found : Except Error Page}
    (h : start.Serves p uses) (ho : p.obtain request source = (found, p')) :
    ∃ uses', start.Serves p' uses' := by
  cases source with
  | cache =>
    have hread : p.read request.tid request.page = (found, p') := ho
    cases found with
    | error e => exact ⟨_, h.readFails hread⟩
    | ok page => exact ⟨_, h.read hread⟩
  | store =>
    obtain rfl : p = p' := (Prod.mk.inj ho).2
    exact ⟨_, h⟩

theorem installAll (h : start.Serves p uses) (t : TransactionId) (pages : List Page) :
    ∃ uses', start.Serves (p.installAll t pages).2 uses' := by
  induction pages generalizing p uses with
  | nil => exact ⟨_, h⟩
  | cons page pages ih =>
    unfold Pool.installAll
    cases hi : p.install t page with
    | error e => exact ⟨_, h⟩
    | ok p' => exact ih (h.install hi)

theorem resume (h : start.Serves p uses) (c : Call) :
    ∃ uses', start.Serves (p.resume c).2 uses' := by
  obtain ⟨found, k, hobtain, ⟨locks, catalog, hresume⟩ | ⟨pages, hresume⟩⟩ := pool_resume p c
  · obtain ⟨uses', hread⟩ := h.obtain hobtain
    exact ⟨uses', hresume ▸ hread.other rfl rfl rfl rfl⟩
  · obtain ⟨uses', hread⟩ := h.obtain hobtain
    exact hresume ▸ hread.installAll c.request.tid pages

theorem turn (h : start.Serves p uses) (c : Call) :
    ∃ uses', start.Serves (p.runCall 1 c).2 uses' := by
  have hlocked (locks : LockTable) : start.Serves { p with locks } uses :=
    h.other rfl rfl rfl rfl
  rcases runCall_one_cases p c with
    ⟨locks, -, hrun | ⟨e, hrun⟩⟩ | ⟨locks, -, ⟨r, p', hresume, hrun⟩ | ⟨c', p', hresume, hrun⟩⟩
  · exact ⟨uses, hrun ▸ hlocked locks⟩
  · exact ⟨uses, hrun ▸ hlocked locks⟩
  all_goals
    have hgoes := (hlocked locks).resume c
    rw [hresume] at hgoes
    rwa [hrun]

theorem flushEach (h : start.Serves p uses) (qs : List PageId) :
    start.Serves (p.flushEach qs).2 uses :=
  flushEach_preserves (P := (start.Serves · uses)) (fun q h => h.flush q) h qs

end Serves

end Pool

namespace World

variable {w start : World} {rule : World → Action → Prop} {uses : List PageId} {p : Pool}

theorem serves_perform (h : p.Serves w.pool uses) (a : Action) :
    ∃ uses', p.Serves (w.perform a).pool uses' := by
  have hsame : ∃ uses', p.Serves w.pool uses' := ⟨uses, h⟩
  cases a with
  | begin => exact ⟨uses, h.other rfl rfl rfl rfl⟩
  | call step c =>
    simp only [perform]
    rw [pool_issue]
    obtain ⟨catalog, ⟨result, hs⟩ | ⟨call, hs, -⟩⟩ := Pool.start_cases w.pool c
    · exact ⟨uses, hs ▸ h.other rfl rfl rfl rfl⟩
    · exact ⟨uses, hs ▸ h.other rfl rfl rfl rfl⟩
  | turn i =>
    simp only [perform]
    cases hi : w.session.pending[i]? with
    | none => rwa [turn_of_absent hi]
    | some call =>
      rw [pool_turn hi]
      exact h.turn call.call
  | complete t commit => exact ⟨uses, h.complete t commit⟩
  | flush q => exact ⟨uses, h.flush q⟩
  | flushAll => exact ⟨uses, h.flushEach _⟩
  | flushOf t => exact ⟨uses, h.flushEach _⟩
  | discard q => exact ⟨uses, h.discard q⟩
  | releaseLock t q => exact ⟨uses, h.other rfl rfl rfl rfl⟩
  | failStore table faults =>
    simp only [perform]
    cases w.pool.catalog.setFaults table faults with
    | error e => exact hsame
    | ok catalog => exact ⟨uses, h.other rfl rfl rfl rfl⟩
  | failLog refuses forceFails => exact ⟨uses, h.other rfl rfl rfl rfl⟩

/-- Every pool that callers can bring about has such a past. -/
theorem Reaches.serves (hr : Reaches rule start w) : ∃ uses, start.pool.Serves w.pool uses := by
  induction hr with
  | refl => exact ⟨[], .refl⟩
  | step _ _ ih =>
    obtain ⟨uses, h⟩ := ih
    exact serves_perform h _

/-- A fetch finds no place for its page just if the page is not cached and the cache is full of pages
that must stay; then nothing has changed in cache and store. Else it succeeds if the store can be
read, and no page has left the cache but the one of those that may go that was last used longest
ago. So it goes in every pool that callers can bring about, whatever uses it has seen. -/
theorem fetch_makes_room {capacity : Nat} {catalog : Catalog} {journal : Journal}
    (hp : Pool.make capacity catalog journal = .ok p) (hr : Reaches rule (ofPool p) w) :
    (∃ uses, p.Serves w.pool uses) ∧
    ∀ uses, p.Serves w.pool uses → ∀ (request : LockRequest) (locks : LockTable) (n : Nat),
      w.pool.locks.acquire request = (.granted, locks) →
      ∃ result p', w.pool.runCall (n + 1) ⟨request, .fetch⟩ = (.ended result, p') ∧
        (result = .error (.storageExhausted capacity) ↔
          w.pool.isCached request.page = false ∧ w.pool.pages.size = capacity ∧
            ∀ q, w.pool.isCached q = true → w.pool.Pinned q) ∧
        (result = .error (.storageExhausted capacity) →
          p'.pages = w.pool.pages ∧ p'.unsynced = w.pool.unsynced ∧
            p'.recency = w.pool.recency ∧ p'.catalog = w.pool.catalog) ∧
        (result ≠ .error (.storageExhausted capacity) →
          (∀ stored, w.pool.catalog.readPage request.page = .ok stored →
            result = .ok (.page ((w.pool.pages.get? request.page).getD stored))) ∧
          ((∀ q page, w.pool.pages.get? q = some page → p'.pages.get? q = some page) ∨
            ∃ victim, w.pool.Evicts p' uses victim)) := by
  refine ⟨hr.serves, fun uses hserves request locks n hlock => ?_⟩
  obtain ⟨horder, hcapacity⟩ := hserves.inOrder (Pool.inOrder_make hp)
  rw [(Pool.bounded_make hp).2] at hcapacity
  subst hcapacity
  have hlocked : Pool.Rereads w.pool { w.pool with locks } := .locks horder.bounded locks
  have horder' : ({ w.pool with locks } : Pool).InOrder uses :=
    horder.of_sublist hlocked.bounded (List.Sublist.refl _)
  have hexhausted := Pool.read_exhausted_iff horder'.bounded request.tid request.page
  have hresult := Pool.fetch_eq_exhausted_iff w.pool.catalog request.page.table
    (({ w.pool with locks } : Pool).read request.tid request.page).1 w.pool.capacity
  refine ⟨_, _, Pool.runCall_fetch hlock n, hresult.trans hexhausted, ?_, ?_⟩
  · intro hfull
    rw [Pool.read_of_exhausted horder'.bounded (hresult.1 hfull)]
    exact ⟨rfl, rfl, rfl, rfl⟩
  · intro hfree
    refine ⟨?_, (horder'.read_drops request.tid request.page).imp id ?_⟩
    · intro stored hs
      rw [Pool.read_of_stored horder'.bounded hs (hfree ∘ hresult.2)]
      unfold Catalog.readPage at hs
      cases ht : w.pool.catalog.table request.page.table with
      | error e => simp [ht] at hs
      | ok heap => rfl
    · rintro ⟨victim, hv⟩
      exact ⟨victim, hv.of_cache rfl rfl⟩

/-- A pool of one page, with the page changed by transaction 1. -/
def fullCache : World :=
  (ofPool onePage).performAll [.call 0 (.insert ⟨1⟩ ⟨1⟩ [7]), .turn 0]

/-- Transaction 1 has changed the page that takes the only place of the cache. -/
theorem changed_page_fills_cache :
    (fullCache.pool.runCall 1 ⟨⟨⟨1⟩, ⟨⟨1⟩, 1⟩, .shared⟩, .fetch⟩).1 =
      .ended (.error (.storageExhausted 1)) := by
  have hreaches : Reaches (fun _ _ => True) (ofPool onePage) fullCache :=
    Reaches.refl.performAll ⟨trivial, trivial, trivial⟩
  have hlock : fullCache.pool.locks.acquire ⟨⟨1⟩, ⟨⟨1⟩, 1⟩, .shared⟩ =
      (.granted, (fullCache.pool.locks.acquire ⟨⟨1⟩, ⟨⟨1⟩, 1⟩, .shared⟩).2) := rfl
  have hpinned (q : PageId) (hq : fullCache.pool.isCached q = true) : fullCache.pool.Pinned q := by
    have hkeys : fullCache.pool.pages.keys = [⟨⟨1⟩, 0⟩] := rfl
    rw [Pool.isCached, OrdMap.contains_iff, hkeys, List.mem_singleton] at hq
    rw [hq]
    exact ⟨⟨⟨⟨1⟩, 0⟩, [1, 7], [0, 0], some ⟨1⟩⟩, by decide, .inl (Option.some_ne_none _)⟩
  obtain ⟨⟨uses, hserves⟩, hfetches⟩ := fetch_makes_room make_onePage hreaches
  obtain ⟨result, p', hrun, hfull, -⟩ := hfetches uses hserves _ _ 0 hlock
  rw [hrun]
  exact congrArg Pass.ended (hfull.2 ⟨rfl, rfl, hpinned⟩)

end World

end PagePool
