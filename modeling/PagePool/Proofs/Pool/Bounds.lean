import PagePool.Proofs.Pool.Requests
import PagePool.Proofs.Pool.WriteAhead

namespace PagePool

def StoreWrite.Refused (x : StoreWrite) : Prop := ∃ e, x.pool.catalog.writePage x.page = .error e

instance (x : StoreWrite) : Decidable x.Refused :=
  match h : x.pool.catalog.writePage x.page with
  | .ok _ => isFalse fun ⟨_, he⟩ => by cases h.symm.trans he
  | .error e => isTrue ⟨e, h⟩

namespace Pool

/-- The cache has no more pages than it may have, and its bookkeeping agrees with it. -/
structure Bounded (p : Pool) : Prop where
  resident : p.Resident
  size_le : p.pages.size ≤ p.capacity

/-- A cached page that must not be evicted: somebody has changed it, or the store has missed its
bytes. -/
def Pinned (p : Pool) (q : PageId) : Prop :=
  ∃ page, p.pages.get? q = some page ∧ (page.dirtiedBy ≠ none ∨ q ∈ p.unsynced)

/-- Clean pages that the store has may have gone, and clean ones may have come. -/
structure Rereads (p p' : Pool) : Prop where
  bounded : p'.Bounded
  capacity_eq : p'.capacity = p.capacity
  unsynced_eq : p'.unsynced = p.unsynced
  pinned_stays : ∀ {q page}, p.pages.get? q = some page →
    page.dirtiedBy ≠ none ∨ q ∈ p.unsynced → p'.pages.get? q = some page
  changed_stays : ∀ {q page}, p'.pages.get? q = some page → page.dirtiedBy ≠ none →
    p.pages.get? q = some page

/-- No pinned page has gone, or has stopped being pinned. -/
structure Spares (p p' : Pool) : Prop where
  bounded : p'.Bounded
  capacity_eq : p'.capacity = p.capacity
  pinned : ∀ {q}, p.Pinned q → p'.Pinned q

/-- The same pages are cached, whatever they have become. -/
structure Recaches (p p' : Pool) : Prop where
  resident : p'.Resident
  keys_eq : p'.pages.keys = p.pages.keys
  capacity_eq : p'.capacity = p.capacity

variable {p p' p'' : Pool} {q r : PageId} {page : Page} {t : TransactionId} {c : Call}

theorem Pinned.isCached (h : p.Pinned q) : p.isCached q = true := by
  obtain ⟨page, hq, -⟩ := h
  exact isCached_iff.2 ⟨page, hq⟩

theorem bounded_make {capacity : Nat} {catalog : Catalog} {journal : Journal}
    (h : make capacity catalog journal = .ok p) : p.Bounded ∧ p.capacity = capacity := by
  have hresident := resident_make h
  obtain ⟨-, rfl⟩ := make_eq_ok h
  exact ⟨⟨hresident, Nat.zero_le _⟩, rfl⟩

/-! What a call does to the cache: it makes room, it loads a page, it installs what it has
changed. -/

namespace Rereads

theorem refl (h : p.Bounded) : Rereads p p := ⟨h, rfl, rfl, fun hq _ => hq, fun hq _ => hq⟩

theorem trans (h : Rereads p p') (h' : Rereads p' p'') : Rereads p p'' where
  bounded := h'.bounded
  capacity_eq := h'.capacity_eq.trans h.capacity_eq
  unsynced_eq := h'.unsynced_eq.trans h.unsynced_eq
  pinned_stays hq hpin := h'.pinned_stays (h.pinned_stays hq hpin) (h.unsynced_eq ▸ hpin)
  changed_stays hq hd := h.changed_stays (h'.changed_stays hq hd) hd

theorem of_cache (h : p.Bounded) (hpages : p'.pages = p.pages) (hrecency : p'.recency = p.recency)
    (hunsynced : p'.unsynced = p.unsynced) (hcapacity : p'.capacity = p.capacity) :
    Rereads p p' := by
  refine ⟨⟨h.resident.of_cache hpages hrecency hunsynced, ?_⟩, hcapacity, hunsynced, ?_, ?_⟩
  · rw [hpages, hcapacity]
    exact h.size_le
  · rw [hpages]
    exact fun hq _ => hq
  · rw [hpages]
    exact fun hq _ => hq

theorem locks (h : p.Bounded) (locks : LockTable) : Rereads p { p with locks } :=
  of_cache h rfl rfl rfl rfl

/-- The victim is neither changed nor unsynced, and it leaves a place. -/
theorem evict (h : p.Bounded) (he : p.evict = .ok p') :
    Rereads p p' ∧ p'.pages.size < p'.capacity := by
  have hresident := h.resident.evict he
  obtain ⟨victim, hon, rfl⟩ := evict_eq_ok he
  obtain ⟨gone, hgone, hclean, hsynced⟩ := h.resident.evictable_iff.1 hon
  have hsmaller : (p.pages.erase victim).size < p.pages.size :=
    OrdMap.size_erase_lt (isCached_iff.2 ⟨gone, hgone⟩)
  have hroom : (p.pages.erase victim).size < p.capacity := Nat.lt_of_lt_of_le hsmaller h.size_le
  refine ⟨⟨⟨hresident, Nat.le_of_lt hroom⟩, rfl, rfl, ?_, ?_⟩, hroom⟩
  · intro r other hr hpin
    have hne : r ≠ victim := by
      rintro rfl
      obtain rfl := Option.some.inj (hgone.symm.trans hr)
      exact hpin.elim (fun hd => hd hclean) hsynced
    exact (OrdMap.get?_erase _ _ _).trans ((if_neg hne).trans hr)
  · intro r other hr _
    rw [OrdMap.get?_erase] at hr
    split at hr
    · contradiction
    · exact hr

theorem makeRoom (h : p.Bounded) (he : p.makeRoom = .ok p') :
    Rereads p p' ∧ p'.pages.size < p'.capacity := by
  unfold Pool.makeRoom at he
  split at he
  · rename_i hroom
    obtain rfl := Except.ok.inj he
    exact ⟨refl h, hroom⟩
  · exact evict h he

theorem addClean (h : p.Bounded) (hroom : p.pages.size < p.capacity)
    (hq : p.isCached page.id ≠ true) (hclean : page.dirtiedBy = none) :
    Rereads p (p.addClean page) := by
  have hpages (r : PageId) :
      (p.addClean page).pages.get? r = if r = page.id then some page else p.pages.get? r :=
    OrdMap.get?_insert _ _ _ _
  have hsize : (p.addClean page).pages.size ≤ p.pages.size + 1 := OrdMap.size_insert_le _ _ _
  refine ⟨⟨h.resident.addClean hq hclean, Nat.le_trans hsize hroom⟩, rfl, rfl, ?_, ?_⟩
  · intro r other hr _
    rw [hpages, if_neg]
    · exact hr
    · rintro rfl
      exact hq (isCached_iff.2 ⟨other, hr⟩)
  · intro r other hr hd
    rw [hpages] at hr
    split at hr
    · rw [← Option.some.inj hr] at hd
      exact absurd hclean hd
    · exact hr

theorem hit (h : p.Bounded) (hq : p.isCached q = true) : Rereads p (p.hit q) :=
  ⟨⟨h.resident.hit hq, h.size_le⟩, rfl, rfl, fun hr _ => hr, fun hr _ => hr⟩

theorem read (h : p.Bounded) (t : TransactionId) (q : PageId) : Rereads p (p.read t q).2 := by
  have hmiss : Rereads p (p.afterMiss t) := of_cache h rfl rfl rfl rfl
  rcases read_cases p t q with ⟨page, hq, hr⟩ | ⟨hq, ⟨e, hr⟩ | ⟨p', hroom, ⟨e, hr⟩ | ⟨stored, hs, hr⟩⟩⟩
  · rw [hr]
    have hactive : Rereads p { p with active := p.active.insert t } := of_cache h rfl rfl rfl rfl
    exact hactive.trans (hit hactive.bounded (isCached_iff.2 ⟨page, hq⟩))
  · rwa [hr]
  · rw [hr]
    exact hmiss.trans (makeRoom hmiss.bounded hroom).1
  · rw [hr]
    obtain ⟨hmade, hsize⟩ := makeRoom hmiss.bounded hroom
    obtain ⟨d, rfl⟩ := Catalog.eq_ofStored_of_readPage hs
    refine (hmiss.trans hmade).trans (addClean hmade.bounded hsize ?_ rfl)
    intro hcached
    obtain ⟨page, hpage⟩ := isCached_iff.1 (isCached_of_makeRoom hroom hcached)
    have habs : none = some page := hq.symm.trans hpage
    contradiction

theorem obtain {found : Except Error Page} {r : LockRequest} {source : PageSource}
    (h : p.Bounded) (ho : p.obtain r source = (found, p')) : Rereads p p' := by
  cases source with
  | cache =>
    have hread := read h r.tid r.page
    have heq : p.read r.tid r.page = (found, p') := ho
    rwa [heq] at hread
  | store =>
    obtain rfl : p = p' := (Prod.mk.inj ho).2
    exact refl h

theorem spares (h : Rereads p p') : Spares p p' where
  bounded := h.bounded
  capacity_eq := h.capacity_eq
  pinned := by
    rintro q ⟨page, hq, hpin⟩
    exact ⟨page, h.pinned_stays hq hpin, h.unsynced_eq ▸ hpin⟩

end Rereads

namespace Spares

theorem trans (h : Spares p p') (h' : Spares p' p'') : Spares p p'' :=
  ⟨h'.bounded, h'.capacity_eq.trans h.capacity_eq, fun hq => h'.pinned (h.pinned hq)⟩

theorem refl (h : p.Bounded) : Spares p p := (Rereads.refl h).spares

/-- A changed page takes the place of its cached copy, or a free one. -/
theorem addDirty (h : p.Bounded)
    (hplace : p.pages.contains page.id = true ∨ p.pages.size < p.capacity) (t : TransactionId) :
    Spares p (p.addDirty t page) := by
  have hpages (r : PageId) : (p.addDirty t page).pages.get? r =
      if r = page.id then some (page.markDirty t) else p.pages.get? r :=
    OrdMap.get?_insert _ _ _ _
  have hsize : (p.pages.insert page.id (page.markDirty t)).size ≤ p.capacity := by
    rcases hplace with hcached | hroom
    · rw [OrdMap.size_eq_length_keys, OrdMap.keys_insert_of_contains hcached,
        ← OrdMap.size_eq_length_keys]
      exact h.size_le
    · exact Nat.le_trans (OrdMap.size_insert_le _ _ _) hroom
  refine ⟨⟨h.resident.addDirty t page, hsize⟩, rfl, ?_⟩
  rintro r ⟨other, hr, hpin⟩
  by_cases hne : r = page.id
  · exact ⟨page.markDirty t, (hpages r).trans (if_pos hne), .inl nofun⟩
  · exact ⟨other, (hpages r).trans ((if_neg hne).trans hr), hpin⟩

theorem install (h : p.Bounded) (hi : p.install t page = .ok p') : Spares p p' := by
  unfold Pool.install makeRoomFor at hi
  split at hi
  · split at hi
    · rename_i hcached
      obtain rfl := Except.ok.inj hi
      exact addDirty h (.inl hcached) t
    · cases hmade : p.makeRoom with
      | error e => simp [hmade, Except.map] at hi
      | ok k =>
        rw [hmade] at hi
        obtain rfl := Except.ok.inj hi
        obtain ⟨hrereads, hroom⟩ := Rereads.makeRoom h hmade
        exact hrereads.spares.trans (addDirty hrereads.bounded (.inr hroom) t)
  · contradiction

theorem installAll (h : p.Bounded) (t : TransactionId) (pages : List Page) :
    Spares p (p.installAll t pages).2 := by
  induction pages generalizing p with
  | nil => exact refl h
  | cons page pages ih =>
    unfold Pool.installAll
    cases hi : p.install t page with
    | error e => exact refl h
    | ok p' => exact (install h hi).trans (ih (install h hi).bounded)

theorem resume (h : p.Bounded) (c : Call) : Spares p (p.resume c).2 := by
  obtain ⟨found, k, hobtain, ⟨locks, catalog, hresume⟩ | ⟨pages, hresume⟩⟩ := pool_resume p c
  · have hread := Rereads.obtain h hobtain
    have hkept : Rereads k (p.resume c).2 := by
      rw [hresume]
      exact .of_cache hread.bounded rfl rfl rfl rfl
    exact (hread.trans hkept).spares
  · have hread := Rereads.obtain h hobtain
    rw [hresume]
    exact hread.spares.trans (installAll hread.bounded c.request.tid pages)

/-- Whatever lock a call asks for, and whatever comes of it. -/
theorem turn (h : p.Bounded) (c : Call) : Spares p (p.runCall 1 c).2 := by
  have hlocked (locks : LockTable) := Rereads.locks h locks
  rcases runCall_one_cases p c with
    ⟨locks, -, hrun | ⟨e, hrun⟩⟩ | ⟨locks, -, ⟨r, p', hresume, hrun⟩ | ⟨c', p', hresume, hrun⟩⟩
  · rw [hrun]
    exact (hlocked locks).spares
  · rw [hrun]
    exact (hlocked locks).spares
  · have hgoes := resume (hlocked locks).bounded c
    rw [hresume] at hgoes
    rw [hrun]
    exact (hlocked locks).spares.trans hgoes
  · have hgoes := resume (hlocked locks).bounded c
    rw [hresume] at hgoes
    rw [hrun]
    exact (hlocked locks).spares.trans hgoes

end Spares

/-! Completions and flushes put clean pages in place of cached ones. -/

namespace Recaches

theorem refl (h : p.Resident) : Recaches p p := ⟨h, rfl, rfl⟩

theorem trans (h : Recaches p p') (h' : Recaches p' p'') : Recaches p p'' :=
  ⟨h'.resident, h'.keys_eq.trans h.keys_eq, h'.capacity_eq.trans h.capacity_eq⟩

theorem bounded (h : Recaches p p') (hsize : p.pages.size ≤ p.capacity) : p'.Bounded := by
  refine ⟨h.resident, ?_⟩
  rw [OrdMap.size_eq_length_keys, h.keys_eq, ← OrdMap.size_eq_length_keys, h.capacity_eq]
  exact hsize

theorem isCached_iff (h : Recaches p p') : p'.isCached q = true ↔ p.isCached q = true := by
  unfold Pool.isCached
  rw [OrdMap.contains_iff, OrdMap.contains_iff, h.keys_eq]

theorem settlePage {k : Pool} {on : Bool} (hresident : (k.settlePage page on).Resident)
    (hq : p.isCached page.id = true) (hpages : k.pages = p.pages)
    (hcapacity : k.capacity = p.capacity) : Recaches p (k.settlePage page on) := by
  refine ⟨hresident, ?_, hcapacity⟩
  have hcached : k.pages.contains page.id = true := by
    rw [hpages]
    exact hq
  exact (OrdMap.keys_insert_of_contains hcached page).trans (congrArg OrdMap.keys hpages)

theorem writeCommitted (h : p.Resident) (hq : p.isCached page.id = true) :
    Recaches p (p.writeCommitted page).2 := by
  have hresident := h.writeCommitted hq
  unfold Pool.writeCommitted at hresident ⊢
  cases hw : p.catalog.writePage page with
  | ok catalog =>
    rw [hw] at hresident
    exact .settlePage hresident hq rfl rfl
  | error e =>
    rw [hw] at hresident
    exact .settlePage hresident hq rfl rfl

theorem rollBack (h : p.Resident) (hq : p.isCached page.id = true) :
    Recaches p (p.rollBack page).2 := by
  have hresident := h.rollBack hq
  unfold Pool.rollBack at hresident ⊢
  split at hresident
  · rename_i hm
    rw [if_pos hm]
    cases hw : p.catalog.writePage page.beforeImage with
    | ok catalog =>
      rw [hw] at hresident
      exact .settlePage hresident hq rfl rfl
    | error e =>
      rw [hw] at hresident
      exact .settlePage hresident hq rfl rfl
  · rename_i hm
    rw [if_neg hm]
    exact .settlePage hresident hq rfl rfl

theorem forEachPage {handle : Pool → Page → Except Error Unit × Pool}
    (hstep : ∀ {p page}, p.Resident → p.isCached page.id = true → Recaches p (handle p page).2)
    (h : p.Resident) {pages : List Page} (hpages : ∀ page ∈ pages, p.isCached page.id = true) :
    Recaches p (forEachPage handle p pages).2 := by
  induction pages generalizing p with
  | nil => exact refl h
  | cons page pages ih =>
    obtain ⟨hq, hrest⟩ := List.forall_mem_cons.1 hpages
    have hfirst := hstep h hq
    exact hfirst.trans (ih hfirst.resident fun other hother =>
      hfirst.isCached_iff.2 (hrest other hother))

/-- Locks, log, counters and active transactions do not matter. -/
theorem of_cache (h : Recaches p p') (hpages : p''.pages = p'.pages)
    (hrecency : p''.recency = p'.recency) (hunsynced : p''.unsynced = p'.unsynced)
    (hcapacity : p''.capacity = p'.capacity) : Recaches p p'' :=
  ⟨h.resident.of_cache hpages hrecency hunsynced, (congrArg OrdMap.keys hpages).trans h.keys_eq,
    hcapacity.trans h.capacity_eq⟩

theorem complete (h : p.Resident) (t : TransactionId) (commit : Bool) :
    Recaches p (p.complete t commit).2 := by
  have hdirty {k : Pool} (hk : k.pages = p.pages) :
      ∀ page ∈ p.dirtiedBy t, k.isCached page.id = true := by
    intro page hpage
    rw [Pool.isCached, hk]
    exact Pool.isCached_iff.2 ⟨page, ((mem_dirtiedBy h).1 hpage).1⟩
  cases commit with
  | true =>
    rcases commit_cases p t with ⟨e, journal, -, hc⟩ | ⟨journal, stats, -, -, hc⟩
    · simp only [Pool.complete, if_true, hc]
      exact (refl h).of_cache rfl rfl rfl rfl
    · simp only [Pool.complete, if_true, hc]
      have hlogged : Recaches p { p with journal } := (refl h).of_cache rfl rfl rfl rfl
      exact (hlogged.trans (forEachPage writeCommitted hlogged.resident (hdirty rfl))).of_cache
        rfl rfl rfl rfl
  | false =>
    rcases abort_cases p t with ⟨-, journal, stats, habort⟩ | ⟨-, habort⟩
    · simp only [Pool.complete, Bool.false_eq_true, if_false, habort]
      exact (forEachPage rollBack h (hdirty rfl)).of_cache rfl rfl rfl rfl
    · simp only [Pool.complete, Bool.false_eq_true, if_false, habort]
      exact (refl h).of_cache rfl rfl rfl rfl

theorem flush (h : p.Resident) (q : PageId) : Recaches p (p.flush q).2 := by
  have hresident := h.flush q
  cases hq : p.pages.get? q with
  | none =>
    have hsame : (p.flush q).2 = p := by simp only [Pool.flush, hq]
    rw [hsame]
    exact refl h
  | some page =>
    have hid := h.id_eq hq
    subst hid
    have hcached : p.isCached page.id = true := Pool.isCached_iff.2 ⟨page, hq⟩
    simp only [Pool.flush, hq] at hresident ⊢
    cases hown : page.dirtiedBy with
    | some owner =>
      obtain ⟨result, journal, hlog⟩ := logFlush_eq p owner page
      simp only [hown, flushDirty, hlog] at hresident ⊢
      cases result with
      | error e => exact (refl h).of_cache rfl rfl rfl rfl
      | ok u =>
        simp only at hresident ⊢
        cases hw : p.catalog.writePage page with
        | error e => exact (refl h).of_cache rfl rfl rfl rfl
        | ok catalog =>
          simp only [hw] at hresident ⊢
          split at hresident
          · rename_i hactive
            rw [if_pos hactive]
            exact ⟨hresident, rfl, rfl⟩
          · rename_i hactive
            rw [if_neg hactive]
            exact .settlePage hresident hcached rfl rfl
    | none =>
      simp only [hown, flushClean] at hresident ⊢
      split at hresident
      · rename_i hm
        rw [if_pos hm]
        cases hw : p.catalog.writePage page with
        | error e => exact refl h
        | ok catalog =>
          rw [hw] at hresident
          exact .settlePage hresident hcached rfl rfl
      · rename_i hm
        rw [if_neg hm]
        exact refl h

theorem flushEach (h : p.Resident) (qs : List PageId) : Recaches p (p.flushEach qs).2 :=
  flushEach_preserves (P := Recaches p) (fun q hr => hr.trans (flush hr.resident q)) (refl h) qs

end Recaches

/-! A page that the store refuses stays pinned. -/

theorem Pinned.of_ne {d : Bytes} (h : p.Pinned r) (hne : r ≠ q)
    (hpages : ∀ r, p'.pages.get? r = if r = q then some (.ofStored q d) else p.pages.get? r)
    (hunsynced : r ∈ p.unsynced → r ∈ p'.unsynced) : p'.Pinned r := by
  obtain ⟨page, hr, hpin⟩ := h
  exact ⟨page, (hpages r).trans ((if_neg hne).trans hr), hpin.imp_right hunsynced⟩

theorem pinned_writeCommitted_of_ne (h : p.Pinned r) (hne : r ≠ page.id) :
    (p.writeCommitted page).2.Pinned r := by
  refine h.of_ne hne (get?_writeCommitted p page) fun hr => ?_
  unfold writeCommitted
  split
  · exact OrdSet.mem_erase.2 ⟨hne, hr⟩
  · exact OrdSet.mem_insert.2 (.inr hr)

theorem pinned_rollBack_of_ne (h : p.Pinned r) (hne : r ≠ page.id) :
    (p.rollBack page).2.Pinned r := by
  refine h.of_ne hne (get?_rollBack p page) fun hr => ?_
  unfold rollBack
  split
  · split
    · exact OrdSet.mem_erase.2 ⟨hne, hr⟩
    · exact hr
  · exact hr

/-- One refused write of those that pages handled in turn come to: the page is pinned when its turn
is over, and the turns of the others leave it so. -/
theorem pinned_forEachPage {handle : Pool → Page → Except Error Unit × Pool}
    {writes : Pool → Page → List StoreWrite}
    (hself : ∀ {p page x}, x ∈ writes p page → x.Refused →
      x.page.id = page.id ∧ (handle p page).2.Pinned page.id)
    (hother : ∀ {p page r}, p.Pinned r → r ≠ page.id → (handle p page).2.Pinned r)
    {pages : List Page} (hnodup : (pages.map Page.id).Nodup) {x : StoreWrite}
    (hx : x ∈ writesEach handle writes p pages) (hrefused : x.Refused) :
    (forEachPage handle p pages).2.Pinned x.page.id := by
  have hlater {k : Pool} {pages : List Page} {r : PageId} (hr : k.Pinned r)
      (hmem : r ∉ pages.map Page.id) : (forEachPage handle k pages).2.Pinned r := by
    induction pages generalizing k with
    | nil => exact hr
    | cons page pages ih =>
      rw [List.map_cons, List.mem_cons, not_or] at hmem
      exact ih (hother hr hmem.1) hmem.2
  induction pages generalizing p with
  | nil => contradiction
  | cons page pages ih =>
    rw [List.map_cons, List.nodup_cons] at hnodup
    rcases List.mem_append.1 hx with hx | hx
    · obtain ⟨hid, hpinned⟩ := hself hx hrefused
      rw [hid]
      have hrest := hlater hpinned hnodup.1
      exact hrest
    · exact ih hnodup.2 hx

theorem pinned_commit (h : p.Resident) {x : StoreWrite} (hx : x ∈ p.commitWrites t)
    (hrefused : x.Refused) : (p.commit t).2.Pinned x.page.id := by
  obtain ⟨result, journal, hlog⟩ := logCommit_eq p t
  simp only [commitWrites, commit, hlog] at hx ⊢
  cases result with
  | error e => contradiction
  | ok u =>
    refine pinned_forEachPage (p := { p with journal }) ?_ pinned_writeCommitted_of_ne
      (nodup_dirtyPages h t) hx hrefused
    intro p page x hx hrefused
    obtain rfl := List.mem_singleton.1 hx
    obtain ⟨e, he⟩ := hrefused
    refine ⟨rfl, page.committed, (get?_writeCommitted p page page.id).trans (if_pos rfl), .inr ?_⟩
    rw [writeCommitted, he]
    exact OrdSet.mem_insert.2 (.inl rfl)

theorem pinned_abort (h : p.Resident) {x : StoreWrite} (hx : x ∈ p.abortWrites t)
    (hrefused : x.Refused) : (p.abort t).2.Pinned x.page.id := by
  unfold abortWrites at hx
  rcases abort_cases p t with ⟨ht, journal, stats, habort⟩ | ⟨ht, -⟩
  · rw [if_pos ht] at hx
    rw [habort]
    refine pinned_forEachPage ?_ pinned_rollBack_of_ne (nodup_dirtyPages h t) hx hrefused
    intro p page x hx hrefused
    unfold rollBackWrites at hx
    split at hx
    · rename_i hm
      obtain rfl := List.mem_singleton.1 hx
      obtain ⟨e, he⟩ := hrefused
      refine ⟨rfl, page.beforeImage, (get?_rollBack p page page.id).trans (if_pos rfl), .inr ?_⟩
      rw [rollBack, if_pos hm, he]
      exact hm
    · contradiction
  · rw [if_neg ht] at hx
    contradiction

/-- A flush that is refused leaves its page as it was. -/
theorem pinned_flush (h : p.Resident) {x : StoreWrite} (hx : x ∈ p.flushWrites q)
    (hrefused : x.Refused) :
    (p.flush q).2.Pinned x.page.id ∧ ∃ e, (p.flush q).1 = .error e := by
  unfold flushWrites at hx
  obtain ⟨e, he⟩ := hrefused
  cases hq : p.pages.get? q with
  | none =>
    rw [hq] at hx
    contradiction
  | some page =>
    have hid := h.id_eq hq
    subst hid
    simp only [hq] at hx
    cases hown : page.dirtiedBy with
    | some owner =>
      obtain ⟨result, journal, hlog⟩ := logFlush_eq p owner page
      simp only [hown, hlog] at hx
      cases result with
      | error e => contradiction
      | ok u =>
        obtain rfl := List.mem_singleton.1 hx
        simp only at he
        simp only [flush, hq, hown, flushDirty, hlog, he]
        exact ⟨⟨page, hq, .inl (by rw [hown]; exact Option.some_ne_none owner)⟩, e, rfl⟩
    | none =>
      simp only [hown] at hx
      split at hx
      · rename_i hm
        obtain rfl := List.mem_singleton.1 hx
        simp only at he
        simp only [flush, hq, hown, flushClean, hm, if_true, he]
        exact ⟨⟨page, hq, .inr hm⟩, e, rfl⟩
      · contradiction

/-- The first refusal ends a row of flushes. -/
theorem pinned_flushEach {qs : List PageId} (h : p.Resident) {x : StoreWrite}
    (hx : x ∈ p.flushEachWrites qs) (hrefused : x.Refused) :
    (p.flushEach qs).2.Pinned x.page.id := by
  induction qs generalizing p with
  | nil => contradiction
  | cons q qs ih =>
    unfold flushEach
    rcases List.mem_append.1 hx with hx | hx
    · obtain ⟨hpinned, e, he⟩ := pinned_flush h hx hrefused
      rcases hf : p.flush q with ⟨result, p'⟩
      rw [hf] at hpinned he
      obtain rfl : result = .error e := he
      exact hpinned
    · have hresident := h.flush q
      rcases hf : p.flush q with ⟨result, p'⟩
      rw [hf] at hx hresident
      cases result with
      | error e => contradiction
      | ok u => exact ih hresident hx

end Pool

namespace World

variable {w : World} {p : Pool} {a : Action} {q : PageId}

theorem spares_issue (h : w.pool.Bounded) (step : Nat) (c : Command) :
    Pool.Spares w.pool (w.issue step c).2.pool := by
  have hstart (catalog : Catalog) : Pool.Rereads w.pool { w.pool with catalog } :=
    .of_cache h rfl rfl rfl rfl
  obtain ⟨catalog, ⟨result, hs⟩ | ⟨call, hs, -⟩⟩ := Pool.start_cases w.pool c
  · simp only [issue, hs]
    exact (hstart catalog).spares
  · simp only [issue, hs]
    exact (hstart catalog).spares

theorem spares_turn (h : w.pool.Bounded) (i : Nat) : Pool.Spares w.pool (w.turn i).2.pool := by
  cases hi : w.session.pending[i]? with
  | none =>
    rw [turn_of_absent hi]
    exact .refl h
  | some call =>
    rw [pool_turn hi]
    exact .turn h call.call

/-- No step fills the cache beyond its capacity, and only a discard takes a pinned page out of it. -/
theorem bounded_perform (h : w.pool.Bounded) (a : Action) :
    (w.perform a).pool.Bounded ∧ (w.perform a).pool.capacity = w.pool.capacity ∧
      ∀ q, w.pool.Pinned q → a ≠ .discard q → (w.perform a).pool.isCached q = true := by
  have hspares {p' : Pool} (hp : Pool.Spares w.pool p') :
      p'.Bounded ∧ p'.capacity = w.pool.capacity ∧
        ∀ q, w.pool.Pinned q → a ≠ .discard q → p'.isCached q = true :=
    ⟨hp.bounded, hp.capacity_eq, fun q hq _ => (hp.pinned hq).isCached⟩
  have hrecaches {p' : Pool} (hp : Pool.Recaches w.pool p') :
      p'.Bounded ∧ p'.capacity = w.pool.capacity ∧
        ∀ q, w.pool.Pinned q → a ≠ .discard q → p'.isCached q = true :=
    ⟨hp.bounded h.size_le, hp.capacity_eq, fun q hq _ => hp.isCached_iff.2 hq.isCached⟩
  have hrest {p' : Pool} (hp : Pool.Rereads w.pool p') := hspares hp.spares
  cases a with
  | begin => exact hrest (.of_cache h rfl rfl rfl rfl)
  | call step c => exact hspares (spares_issue h step c)
  | turn i => exact hspares (spares_turn h i)
  | complete t commit => exact hrecaches (.complete h.resident t commit)
  | flush page => exact hrecaches (.flush h.resident page)
  | flushAll => exact hrecaches (.flushEach h.resident _)
  | flushOf t => exact hrecaches (.flushEach h.resident _)
  | discard page =>
    have hresident := h.resident.discard page
    simp only [perform, withPool, pool] at hresident ⊢
    unfold Pool.discard at hresident ⊢
    split
    · rename_i hcached
      rw [if_pos hcached] at hresident
      have hsmaller := OrdMap.size_erase_lt hcached
      refine ⟨⟨hresident, Nat.le_of_lt (Nat.lt_of_lt_of_le hsmaller h.size_le)⟩, rfl, ?_⟩
      rintro q ⟨other, hq, -⟩ hne
      have hqp : q ≠ page := fun he => hne (by rw [he])
      exact Pool.isCached_iff.2 ⟨other, (OrdMap.get?_erase _ _ _).trans ((if_neg hqp).trans hq)⟩
    · exact ⟨h, rfl, fun q hq _ => hq.isCached⟩
  | releaseLock t page => exact hrest (.locks h _)
  | failStore table faults =>
    simp only [perform]
    cases w.pool.catalog.setFaults table faults with
    | error e => exact hrest (.refl h)
    | ok catalog => exact hrest (.of_cache h rfl rfl rfl rfl)
  | failLog refuses forceFails => exact hrest (.of_cache h rfl rfl rfl rfl)

theorem Reaches.bounded {rule : World → Action → Prop} {start : World} (hr : Reaches rule start w)
    (h : start.pool.Bounded) : w.pool.Bounded ∧ w.pool.capacity = start.pool.capacity := by
  induction hr with
  | refl => exact ⟨h, rfl⟩
  | @step w a _ _ ih =>
    obtain ⟨hbounded, hcapacity, -⟩ := bounded_perform ih.1 a
    exact ⟨hbounded, hcapacity.trans ih.2⟩

/-- A page that a step has tried to write and could not stays in the cache, and may not go. -/
theorem pinned_of_refused (h : w.pool.Bounded) {x : StoreWrite} (hx : x ∈ w.writes a)
    (hrefused : x.Refused) : (w.perform a).pool.Pinned x.page.id := by
  cases a with
  | complete t commit =>
    cases commit with
    | true => exact Pool.pinned_commit h.resident hx hrefused
    | false => exact Pool.pinned_abort h.resident hx hrefused
  | flush q => exact (Pool.pinned_flush h.resident hx hrefused).1
  | flushAll => exact Pool.pinned_flushEach h.resident hx hrefused
  | flushOf t => exact Pool.pinned_flushEach h.resident hx hrefused
  | _ => contradiction

end World

end PagePool
