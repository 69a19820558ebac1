import Mathlib.Data.List.Sort
import PagePool.Proofs.Pool.Intact
import PagePool.Proofs.Pool.Search

namespace PagePool

namespace Pool

/-- What a cached page can go back to: its table has the page, a clean page has its committed bytes, and
so has the store unless the page is unsynced. -/
structure BackedAt (p : Pool) (q : PageId) (page : Page) : Prop where
  isStored : (p.catalog.stored? q).isSome = true
  clean_eq : page.dirtiedBy = none → page.data = page.before
  stored_eq : q ∉ p.unsynced → p.catalog.stored? q = some page.before

/-- Every cached page can go back to its committed bytes. -/
structure Backed (p : Pool) : Prop where
  intact : p.Intact
  pages : ∀ {q page}, p.pages.get? q = some page → p.BackedAt q page

/-- The page that a read hands out if it succeeds: as it is cached, or as it is stored. -/
def visible? (p : Pool) (q : PageId) : Option Page :=
  match p.pages.get? q with
  | some page => some page
  | none => (p.catalog.stored? q).map (Page.ofStored q)

/-- The same pages can be read, with the same owners and committed bytes, the same bytes are stored, and
the log is the same. At most one table has got zero pages that it did not have. -/
structure SameContents (grown : Option TableId) (p p' : Pool) : Prop where
  visible_eq : ∀ q, p'.visible? q = p.visible? q ∨ some q.table = grown ∧ p.visible? q = none ∧
    p'.visible? q = some (.zeroed q p.catalog.pageSize)
  stored_eq : ∀ q, p'.catalog.stored? q = p.catalog.stored? q ∨ some q.table = grown ∧
    p.catalog.stored? q = none ∧ p'.catalog.stored? q = some (Bytes.zeros p.catalog.pageSize)
  dirtyPages_eq : ∀ t, p'.dirtyPages t = p.dirtyPages t
  journal_eq : p'.journal = p.journal
  size_eq : p'.catalog.pageSize = p.catalog.pageSize

variable {p p' p'' : Pool} {q r : PageId} {page stored : Page} {t : TransactionId}
  {grown : Option TableId}

theorem BackedAt.congr (h : p.BackedAt q page) (hunsynced : q ∈ p.unsynced → q ∈ p'.unsynced)
    (hstored : ∀ d, p.catalog.stored? q = some d → p'.catalog.stored? q = some d) :
    p'.BackedAt q page := by
  obtain ⟨d, hd⟩ := Option.isSome_iff_exists.1 h.isStored
  refine ⟨Option.isSome_of_eq_some (hstored d hd), h.clean_eq, fun hq => ?_⟩
  exact hstored _ (h.stored_eq fun hm => hq (hunsynced hm))

/-- A clean page that is not unsynced is just what the store has. -/
theorem BackedAt.eq_ofStored (h : p.BackedAt q page) (hid : page.id = q)
    (hclean : page.dirtiedBy = none) : page = .ofStored q page.before := by
  obtain ⟨id, data, before, owner⟩ := page
  obtain rfl : id = q := hid
  obtain rfl : owner = none := hclean
  obtain rfl : data = before := h.clean_eq rfl
  rfl

theorem visible?_of_cached (h : p.pages.get? q = some page) : p.visible? q = some page := by
  simp only [visible?, h]

theorem visible?_of_absent (h : p.pages.get? q = none) :
    p.visible? q = (p.catalog.stored? q).map (.ofStored q) := by
  simp only [visible?, h]

theorem visible?_congr (hpages : p'.pages.get? q = p.pages.get? q)
    (hstored : p'.catalog.stored? q = p.catalog.stored? q) : p'.visible? q = p.visible? q := by
  simp only [visible?, hpages, hstored]

/-! Steps keep cached pages backed. -/

theorem backed_make {capacity : Nat} {catalog : Catalog} {journal : Journal} (hs : catalog.Sound)
    (h : make capacity catalog journal = .ok p) : p.Backed := by
  have hintact := intact_make hs h
  obtain ⟨-, rfl⟩ := make_eq_ok h
  exact ⟨hintact, nofun⟩

namespace Backed

/-- A page that can be read is stored. -/
theorem isSome_stored? (h : p.Backed) (hv : p.visible? q = some page) :
    (p.catalog.stored? q).isSome = true := by
  cases hq : p.pages.get? q with
  | some cached => exact (h.pages hq).isStored
  | none =>
    rw [visible?_of_absent hq] at hv
    obtain ⟨d, hd, -⟩ := Option.map_eq_some_iff.1 hv
    exact Option.isSome_of_eq_some hd

/-- Cached pages may go, and the store and the unsynced pages may gain some. -/
theorem of_cache (h : p.Backed) (hi : p'.Intact)
    (hpages : ∀ {q page}, p'.pages.get? q = some page → p.pages.get? q = some page)
    (hunsynced : ∀ {q}, q ∈ p.unsynced → q ∈ p'.unsynced)
    (hstored : ∀ {q d}, p.catalog.stored? q = some d → p'.catalog.stored? q = some d) : p'.Backed :=
  ⟨hi, fun hq => (h.pages (hpages hq)).congr hunsynced fun _ => hstored⟩

/-- One page is put into the cache, or written; the others are as they were. -/
theorem put (h : p.Backed) (hi : p'.Intact) (q : PageId) (hself : p'.BackedAt q page)
    (hpages : ∀ r, p'.pages.get? r = if r = q then some page else p.pages.get? r)
    (hunsynced : ∀ {r}, r ≠ q → r ∈ p.unsynced → r ∈ p'.unsynced)
    (hstored : ∀ {r}, r ≠ q → p'.catalog.stored? r = p.catalog.stored? r) : p'.Backed := by
  refine ⟨hi, fun {r other} hr => ?_⟩
  rw [hpages] at hr
  split at hr
  · rename_i hrq
    obtain rfl := Option.some.inj hr
    rw [hrq]
    exact hself
  · rename_i hrq
    refine (h.pages hr).congr (hunsynced hrq) fun d hd => ?_
    rw [hstored hrq]
    exact hd

theorem congr (h : p.Backed) (hi : p'.Intact) (hpages : p'.pages = p.pages)
    (hunsynced : p'.unsynced = p.unsynced) (hcatalog : p'.catalog = p.catalog) : p'.Backed := by
  refine h.of_cache hi (fun hq => ?_) (fun hq => ?_) (fun hd => ?_)
  · rwa [hpages] at hq
  · rwa [hunsynced]
  · rwa [hcatalog]

theorem locks (h : p.Backed) (locks : LockTable) : ({ p with locks } : Pool).Backed :=
  h.congr (Silent.locks h.intact locks).intact rfl rfl rfl

theorem makeRoom (h : p.Backed) (he : p.makeRoom = .ok p') : p'.Backed := by
  have hintact := (Silent.makeRoom h.intact he).intact
  rcases makeRoom_eq_ok he with rfl | he
  · exact h
  · obtain ⟨victim, -, rfl⟩ := evict_eq_ok he
    refine h.of_cache hintact (fun hq => ?_) id id
    rw [OrdMap.get?_erase] at hq
    split at hq
    · contradiction
    · exact hq

theorem addClean (h : p.Backed) (hi : (p.addClean stored).Intact)
    (hs : p.catalog.readPage q = .ok stored) : (p.addClean stored).Backed := by
  obtain ⟨d, hd, rfl⟩ := Catalog.readPage_eq_ok h.intact.catalog hs
  have hself : (p.addClean (.ofStored q d)).BackedAt q (.ofStored q d) :=
    ⟨Option.isSome_of_eq_some hd, fun _ => rfl, fun _ => hd⟩
  exact h.put hi q hself (fun r => OrdMap.get?_insert _ _ _ _) (fun _ => id) fun _ => rfl

theorem read (h : p.Backed) (t : TransactionId) (q : PageId) : (p.read t q).2.Backed := by
  have hintact := (Silent.read h.intact t q).intact
  have hactive : ∀ u, p.isActive u = true → (p.active.insert t).contains u = true := fun u hu =>
    OrdSet.mem_insert.2 (.inr hu)
  have hmiss : (p.afterMiss t).Backed :=
    h.congr (h.intact.congr rfl rfl rfl rfl hactive) rfl rfl rfl
  rcases read_cases p t q with ⟨page, -, hr⟩ | ⟨-, ⟨e, hr⟩ | ⟨k, hroom, ⟨e, hr⟩ | ⟨stored, hs, hr⟩⟩⟩
  · rw [hr] at hintact ⊢
    exact h.congr hintact rfl rfl rfl
  · rwa [hr]
  · rw [hr]
    exact hmiss.makeRoom hroom
  · rw [hr] at hintact ⊢
    exact (hmiss.makeRoom hroom).addClean hintact hs

/-- A changed page goes back to what it went back to before the change. -/
theorem addDirty {edited : Page} (h : p.Backed) (hi : (p.addDirty t edited).Intact)
    (hq : p.pages.get? edited.id = some page) (hbefore : edited.before = page.before) :
    (p.addDirty t edited).Backed := by
  have hself : (p.addDirty t edited).BackedAt edited.id (edited.markDirty t) := by
    refine ⟨(h.pages hq).isStored, fun hclean => absurd hclean (Option.some_ne_none t), ?_⟩
    intro hsynced
    have hstored := (h.pages hq).stored_eq hsynced
    rwa [← hbefore] at hstored
  exact h.put hi edited.id hself (fun r => OrdMap.get?_insert _ _ _ _) (fun _ => id) fun _ => rfl

theorem discard (h : p.Backed) (q : PageId) : (p.discard q).Backed := by
  have hintact := (Silent.discard h.intact q).intact
  unfold Pool.discard at hintact ⊢
  split
  · rename_i hcached
    rw [if_pos hcached] at hintact
    refine ⟨hintact, fun {r page} hr => ?_⟩
    have hr' : (p.pages.erase q).get? r = some page := hr
    rw [OrdMap.get?_erase] at hr'
    split at hr'
    · contradiction
    · rename_i hrq
      exact (h.pages hr').congr (fun hm => OrdSet.mem_erase.2 ⟨hrq, hm⟩) fun _ => id
  · exact h

/-! Completions and flushes. -/

theorem settlePage {k : Pool} {on : Bool} (h : p.Backed) (hi : (k.settlePage page on).Intact)
    (hself : k.BackedAt page.id page) (hpages : k.pages = p.pages)
    (hunsynced : ∀ {r}, r ≠ page.id → r ∈ p.unsynced → r ∈ k.unsynced)
    (hstored : ∀ {r}, r ≠ page.id → k.catalog.stored? r = p.catalog.stored? r) :
    (k.settlePage page on).Backed := by
  refine h.put hi page.id ⟨hself.isStored, hself.clean_eq, hself.stored_eq⟩ (fun r => ?_) hunsynced
    hstored
  rw [get?_settlePage, hpages]

/-- A page is written, and takes its place in the cache as it was written. -/
theorem settleWritten {journal : Journal} {catalog : Catalog} (h : p.Backed)
    (hw : p.catalog.writePage page = .ok catalog)
    (hi : ((({ p with journal } : Pool).noteWritten page.id catalog).settlePage
      page.committed true).Intact) :
    ((({ p with journal } : Pool).noteWritten page.id catalog).settlePage
      page.committed true).Backed := by
  have hstored := Catalog.stored?_writePage h.intact.catalog hw
  have hself : catalog.stored? page.id = some page.data := (hstored page.id).trans (if_pos rfl)
  refine h.settlePage hi ⟨Option.isSome_of_eq_some hself, fun _ => rfl, fun _ => hself⟩ rfl ?_ ?_
  · exact fun hne hm => OrdSet.mem_erase.2 ⟨hne, hm⟩
  · exact fun {r} hne => (hstored r).trans (if_neg hne)

theorem writeCommitted (h : p.Backed) (hq : p.pages.get? page.id = some page)
    (hi : (p.writeCommitted page).2.Intact) : (p.writeCommitted page).2.Backed := by
  have hstored := (h.pages hq).isStored
  unfold Pool.writeCommitted at hi ⊢
  cases hw : p.catalog.writePage page with
  | ok catalog =>
    rw [hw] at hi
    exact h.settleWritten hw hi
  | error e =>
    rw [hw] at hi
    refine h.settlePage hi ⟨hstored, fun _ => rfl, fun hsynced => ?_⟩ rfl ?_ fun _ => rfl
    · exact absurd (OrdSet.mem_insert.2 (.inl rfl)) hsynced
    · exact fun _ hm => OrdSet.mem_insert.2 (.inr hm)

theorem rollBack (h : p.Backed) (hq : p.pages.get? page.id = some page)
    (hi : (p.rollBack page).2.Intact) : (p.rollBack page).2.Backed := by
  have hself : p.BackedAt page.id page.beforeImage :=
    ⟨(h.pages hq).isStored, fun _ => rfl, (h.pages hq).stored_eq⟩
  unfold Pool.rollBack at hi ⊢
  split at hi
  · rename_i hm
    rw [if_pos hm]
    cases hw : p.catalog.writePage page.beforeImage with
    | ok catalog =>
      rw [hw] at hi
      exact h.settleWritten hw hi
    | error e =>
      rw [hw] at hi
      exact h.settlePage hi hself rfl (fun _ => id) fun _ => rfl
  · rename_i hm
    rw [if_neg hm]
    exact h.settlePage hi hself rfl (fun _ => id) fun _ => rfl

/-- Pages are handled one by one, each as it stands in the cache. -/
theorem forEachPage {handle : Pool → Page → Except Error Unit × Pool}
    (hstep : ∀ {p page}, p.Backed → p.pages.get? page.id = some page → (handle p page).2.Backed)
    (hother : ∀ {p page r}, r ≠ page.id → (handle p page).2.pages.get? r = p.pages.get? r)
    (h : p.Backed) {pages : List Page} (hnodup : (pages.map Page.id).Nodup)
    (hpages : ∀ page ∈ pages, p.pages.get? page.id = some page) :
    (forEachPage handle p pages).2.Backed := by
  induction pages generalizing p with
  | nil => exact h
  | cons page pages ih =>
    rw [List.map_cons, List.nodup_cons] at hnodup
    obtain ⟨hq, hrest⟩ := List.forall_mem_cons.1 hpages
    refine ih (hstep h hq) hnodup.2 fun other hmem => ?_
    have hne : other.id ≠ page.id := fun he => hnodup.1 (he ▸ List.mem_map_of_mem hmem)
    rw [hother hne]
    exact hrest other hmem

theorem complete (h : p.Backed) (t : TransactionId) (commit : Bool) :
    (p.complete t commit).2.Backed := by
  have hintact := (Steady.complete h.intact t commit).intact
  have hcached {k : Pool} (hk : k.pages = p.pages) :
      ∀ page ∈ p.dirtiedBy t, k.pages.get? page.id = some page := by
    intro page hpage
    rw [hk]
    exact ((mem_dirtiedBy h.intact.resident).1 hpage).1
  have hnodup := nodup_dirtyPages h.intact.resident t
  cases commit with
  | true =>
    simp only [Pool.complete, if_true] at hintact ⊢
    rcases commit_cases p t with ⟨e, journal, -, hc⟩ | ⟨journal, stats, -, -, hc⟩
    · rw [hc] at hintact ⊢
      exact h.congr hintact rfl rfl rfl
    · rw [hc] at hintact ⊢
      have hlogged : ({ p with journal } : Pool).Backed :=
        h.congr (h.intact.congr rfl rfl rfl rfl fun _ => id) rfl rfl rfl
      have hwritten : (Pool.forEachPage Pool.writeCommitted { p with journal }
          (p.dirtiedBy t)).2.Backed := by
        refine hlogged.forEachPage (fun {k page} hk hq => ?_) ?_ hnodup (hcached rfl)
        · exact hk.writeCommitted hq (Settles.writeCommitted hk.intact (isCached_iff.2 ⟨page, hq⟩)
            (hk.intact.whole hq)).silent.intact
        · exact fun {k page r} hne => (get?_writeCommitted k page r).trans (if_neg hne)
      exact hwritten.congr hintact rfl rfl rfl
  | false =>
    simp only [Pool.complete, Bool.false_eq_true, if_false] at hintact ⊢
    rcases abort_cases p t with ⟨-, journal, stats, habort⟩ | ⟨-, habort⟩
    · rw [habort] at hintact ⊢
      have hrestored : (Pool.forEachPage Pool.rollBack p (p.dirtiedBy t)).2.Backed := by
        refine h.forEachPage (fun {k page} hk hq => ?_) ?_ hnodup (hcached rfl)
        · exact hk.rollBack hq (Settles.rollBack hk.intact (isCached_iff.2 ⟨page, hq⟩)
            (hk.intact.whole hq)).silent.intact
        · exact fun {k page r} hne => (get?_rollBack k page r).trans (if_neg hne)
      exact hrestored.congr hintact rfl rfl rfl
    · rw [habort] at hintact ⊢
      exact h.congr hintact rfl rfl rfl

theorem flush (h : p.Backed) (q : PageId) : (p.flush q).2.Backed := by
  have hintact := (Steady.flush h.intact q).intact
  rcases flush_cases p q h.intact.owner_active with
    ⟨journal, hf⟩ | ⟨page, catalog, journal, hq, hw, ⟨owner, hown, hf⟩ | ⟨hclean, hf⟩⟩
  · rw [hf] at hintact ⊢
    exact h.congr hintact rfl rfl rfl
  · -- uncommitted bytes are stored now, and the page is unsynced
    have hid := h.intact.resident.id_eq hq
    subst hid
    rw [hf] at hintact ⊢
    have hstored := Catalog.stored?_writePage h.intact.catalog hw
    refine h.put hintact page.id ⟨Option.isSome_of_eq_some ((hstored page.id).trans (if_pos rfl)),
      (h.pages hq).clean_eq, fun hsynced => ?_⟩ (fun r => ?_) ?_ ?_
    · exact absurd (OrdSet.mem_insert.2 (.inl rfl)) hsynced
    · split
      · rename_i hr
        rw [hr]
        exact hq
      · rfl
    · exact fun hne hm => OrdSet.mem_insert.2 (.inr (OrdSet.mem_erase.2 ⟨hne, hm⟩))
    · exact fun {r} hne => (hstored r).trans (if_neg hne)
  · have hid := h.intact.resident.id_eq hq
    subst hid
    rw [hf] at hintact ⊢
    have hsame : page = page.committed := by
      have hpage := (h.pages hq).eq_ofStored rfl hclean
      rw [Page.committed, (h.pages hq).clean_eq hclean]
      exact hpage
    rw [hsame] at hintact ⊢
    exact h.settleWritten hw hintact

theorem flushEach (h : p.Backed) (qs : List PageId) : (p.flushEach qs).2.Backed :=
  flushEach_preserves (fun q h => h.flush q) h qs

end Backed

/-! What leaves the contents as they are. -/

theorem dirtyPages_congr (h : p.Resident) (h' : p'.Resident)
    (hdirty : ∀ {q page}, page.dirtiedBy ≠ none →
      (p'.pages.get? q = some page ↔ p.pages.get? q = some page)) (t : TransactionId) :
    p'.dirtyPages t = p.dirtyPages t := by
  have : Std.Irrefl fun a b : PageId => Key.rank a < Key.rank b := ⟨fun _ => Nat.lt_irrefl _⟩
  have : Std.Antisymm fun a b : PageId => Key.rank a < Key.rank b :=
    ⟨fun _ _ hab hba => absurd hab (Nat.lt_asymm hba)⟩
  refine (dirtyPages_ascending h' t).eq_of_mem_iff (dirtyPages_ascending h t) fun q => ?_
  simp only [dirtyPages, List.mem_map, mem_dirtiedBy h, mem_dirtiedBy h']
  constructor
  · rintro ⟨page, ⟨hq, ht⟩, rfl⟩
    exact ⟨page, ⟨(hdirty (by simp [ht])).1 hq, ht⟩, rfl⟩
  · rintro ⟨page, ⟨hq, ht⟩, rfl⟩
    exact ⟨page, ⟨(hdirty (by simp [ht])).2 hq, ht⟩, rfl⟩

namespace SameContents

theorem refl (p : Pool) : SameContents grown p p :=
  ⟨fun _ => .inl rfl, fun _ => .inl rfl, fun _ => rfl, rfl, rfl⟩

theorem trans (h : SameContents grown p p') (h' : SameContents grown p' p'') :
    SameContents grown p p'' := by
  refine ⟨fun q => ?_, fun q => ?_, fun t => (h'.dirtyPages_eq t).trans (h.dirtyPages_eq t),
    h'.journal_eq.trans h.journal_eq, h'.size_eq.trans h.size_eq⟩
  · rcases h'.visible_eq q with hsame' | ⟨hgrown, hnone, hzero⟩
    · rw [hsame']
      exact h.visible_eq q
    · rw [h.size_eq] at hzero
      rcases h.visible_eq q with hsame | ⟨-, -, hsome⟩
      · exact .inr ⟨hgrown, hsame.symm.trans hnone, hzero⟩
      · cases hnone.symm.trans hsome
  · rcases h'.stored_eq q with hsame' | ⟨hgrown, hnone, hzero⟩
    · rw [hsame']
      exact h.stored_eq q
    · rw [h.size_eq] at hzero
      rcases h.stored_eq q with hsame | ⟨-, -, hsome⟩
      · exact .inr ⟨hgrown, hsame.symm.trans hnone, hzero⟩
      · cases hnone.symm.trans hsome

/-- That no table has grown is more than that only one has. -/
theorem mono (h : SameContents none p p') : SameContents grown p p' := by
  refine ⟨fun q => ?_, fun q => ?_, h.dirtyPages_eq, h.journal_eq, h.size_eq⟩
  · exact .inl ((h.visible_eq q).resolve_right nofun)
  · exact .inl ((h.stored_eq q).resolve_right nofun)

theorem visible_of_none (h : SameContents none p p') (q : PageId) : p'.visible? q = p.visible? q :=
  (h.visible_eq q).resolve_right nofun

theorem stored_of_some {d : Bytes} (h : SameContents grown p p')
    (hd : p.catalog.stored? q = some d) : p'.catalog.stored? q = some d := by
  rcases h.stored_eq q with hsame | ⟨-, hnone, -⟩
  · exact hsame.trans hd
  · cases hnone.symm.trans hd

/-- If no table has more pages than before, no page has come. -/
theorem of_pageCount (h : SameContents grown p p') (h' : p'.Backed)
    (hcount : ∀ j, p'.catalog.pageCount j = p.catalog.pageCount j) : SameContents none p p' := by
  have hstored {q : PageId} (hnone : p.catalog.stored? q = none) :
      p'.catalog.stored? q = none := by
    rw [← Option.not_isSome_iff_eq_none, Catalog.isSome_stored?] at hnone ⊢
    rwa [hcount]
  refine ⟨fun q => .inl ?_, fun q => .inl ?_, h.dirtyPages_eq, h.journal_eq, h.size_eq⟩
  · rcases h.visible_eq q with hsame | ⟨-, hnone, hzeros⟩
    · exact hsame
    · have hnew := h'.isSome_stored? hzeros
      have hold : p.catalog.stored? q = none := by
        unfold visible? at hnone
        split at hnone
        · contradiction
        · exact Option.map_eq_none_iff.1 hnone
      rw [hstored hold] at hnew
      contradiction
  · rcases h.stored_eq q with hsame | ⟨-, hnone, hzeros⟩
    · exact hsame
    · cases (hstored hnone).symm.trans hzeros

theorem of_catalog (h : p.Resident) (h' : p'.Resident) (hcatalog : p'.catalog = p.catalog)
    (hjournal : p'.journal = p.journal) (hvisible : ∀ q, p'.visible? q = p.visible? q)
    (hdirty : ∀ {q page}, page.dirtiedBy ≠ none →
      (p'.pages.get? q = some page ↔ p.pages.get? q = some page)) :
    SameContents none p p' :=
  ⟨fun q => .inl (hvisible q), fun q => .inl (by rw [hcatalog]), dirtyPages_congr h h' hdirty,
    hjournal, by rw [hcatalog]⟩

theorem of_cache (hpages : p'.pages = p.pages) (hcatalog : p'.catalog = p.catalog)
    (hjournal : p'.journal = p.journal) : SameContents none p p' := by
  refine ⟨fun q => .inl ?_, fun q => .inl (by rw [hcatalog]), fun t => ?_, hjournal,
    by rw [hcatalog]⟩
  · exact visible?_congr (by rw [hpages]) (by rw [hcatalog])
  · rw [dirtyPages, dirtiedBy, hpages]
    rfl

/-- The store has what leaves the cache. -/
theorem makeRoom (h : p.Backed) (he : p.makeRoom = .ok p') : SameContents none p p' := by
  have hresident := h.intact.resident.makeRoom he
  rcases makeRoom_eq_ok he with rfl | he
  · exact refl p'
  · obtain ⟨victim, hon, rfl⟩ := evict_eq_ok he
    obtain ⟨gone, hgone, hclean, hsynced⟩ := h.intact.resident.evictable_iff.1 hon
    have hget (q : PageId) : (p.pages.erase victim).get? q =
        if q = victim then none else p.pages.get? q := OrdMap.get?_erase _ _ _
    refine of_catalog h.intact.resident hresident rfl rfl (fun q => ?_) fun {q page} hdirty => ?_
    · by_cases hq : q = victim
      · -- the victim is clean and synced, so the store has all that the cache had of it
        subst hq
        have hbacked := h.pages hgone
        rw [visible?_of_cached hgone, visible?_of_absent ((hget q).trans (if_pos rfl))]
        refine (congrArg (Option.map (Page.ofStored q)) (hbacked.stored_eq hsynced)).trans ?_
        rw [Option.map_some, ← hbacked.eq_ofStored (h.intact.resident.id_eq hgone) hclean]
      · exact visible?_congr ((hget q).trans (if_neg hq)) rfl
    · change (p.pages.erase victim).get? q = some page ↔ _
      rw [hget]
      split
      · rename_i hq
        subst hq
        refine iff_of_false nofun fun hq => hdirty ?_
        rw [← Option.some.inj (hgone.symm.trans hq)]
        exact hclean
      · exact Iff.rfl

/-- A page that comes into the cache is as the store has it. -/
theorem addClean (h : p.Backed) (hq : p.pages.get? q = none)
    (hs : p.catalog.readPage q = .ok stored) : SameContents none p (p.addClean stored) := by
  obtain ⟨d, hd, rfl⟩ := Catalog.readPage_eq_ok h.intact.catalog hs
  have hget (r : PageId) : (p.addClean (.ofStored q d)).pages.get? r =
      if r = q then some (.ofStored q d) else p.pages.get? r := OrdMap.get?_insert _ _ _ _
  have hresident : (p.addClean (.ofStored q d)).Resident := by
    refine h.intact.resident.addClean (fun hcached => ?_) rfl
    obtain ⟨page, hpage⟩ := isCached_iff.1 hcached
    cases hq.symm.trans hpage
  refine of_catalog h.intact.resident hresident rfl rfl (fun r => ?_) fun {r page} hdirty => ?_
  · by_cases hr : r = q
    · subst hr
      rw [visible?_of_cached ((hget r).trans (if_pos rfl)), visible?_of_absent hq, hd]
      rfl
    · exact visible?_congr ((hget r).trans (if_neg hr)) rfl
  · rw [hget]
    split
    · rename_i hr
      rw [hr, hq]
      refine iff_of_false (fun hpage => hdirty ?_) nofun
      rw [← Option.some.inj hpage]
      rfl
    · exact Iff.rfl

theorem read (h : p.Backed) (t : TransactionId) (q : PageId) :
    SameContents none p (p.read t q).2 := by
  have hactive : ∀ u, p.isActive u = true → (p.active.insert t).contains u = true := fun u hu =>
    OrdSet.mem_insert.2 (.inr hu)
  have hmissed : (p.afterMiss t).Backed :=
    h.congr (h.intact.congr rfl rfl rfl rfl hactive) rfl rfl rfl
  have hmiss : SameContents none p (p.afterMiss t) := of_cache rfl rfl rfl
  rcases read_cases p t q with ⟨page, -, hr⟩ | ⟨hq, ⟨e, hr⟩ | ⟨k, hroom, ⟨e, hr⟩ | ⟨stored, hs, hr⟩⟩⟩
  · rw [hr]
    exact of_cache rfl rfl rfl
  · rwa [hr]
  · rw [hr]
    exact hmiss.trans (makeRoom hmissed hroom)
  · rw [hr]
    have hmade := hmissed.makeRoom hroom
    refine (hmiss.trans (makeRoom hmissed hroom)).trans (addClean hmade ?_ hs)
    -- making room brings no page into the cache
    rw [← Option.not_isSome_iff_eq_none]
    intro hcached
    obtain ⟨page, hpage⟩ := isCached_iff.1 (isCached_of_makeRoom hroom hcached)
    cases hq.symm.trans hpage

/-- What a read hands out is what was visible. -/
theorem visible?_of_read (h : p.Backed) (hr : p.read t q = (.ok page, p')) :
    p.visible? q = some page := by
  have hsame := (read h t q).visible_of_none q
  rw [hr] at hsame
  rw [← hsame]
  exact visible?_of_cached (read_eq_ok hr).1

/-- A table that grows gets a zero page. -/
theorem seekRoom (h : p.Backed) (t : TransactionId) (i : TableId) (n : UInt32) (tuple : Bytes)
    (install : Bool) : SameContents (some i) p (p.seekRoom t i n tuple install).2 := by
  unfold Pool.seekRoom
  cases ht : p.catalog.table i with
  | error e => exact refl p
  | ok heap =>
    have hget := Catalog.table_eq_ok.1 ht
    have hgrown (q : PageId) : (p.catalog.pageOrGrow heap n).2.stored? q = p.catalog.stored? q ∨
        some q.table = some i ∧ p.catalog.stored? q = none ∧
          (p.catalog.pageOrGrow heap n).2.stored? q = some (Bytes.zeros p.catalog.pageSize) := by
      refine (Catalog.stored?_pageOrGrow h.intact.catalog hget n q).imp_right ?_
      rintro ⟨hnone, hzeros⟩
      refine ⟨congrArg some ?_, hnone, hzeros⟩
      -- a page of another table cannot be new, since that table has as many pages as before
      by_contra hne
      have hcount := Catalog.pageCount_pageOrGrow_of_ne h.intact.catalog hget n hne
      have hnew := Catalog.isSome_stored?.1 (Option.isSome_of_eq_some hzeros)
      rw [hcount, ← Catalog.isSome_stored?, hnone] at hnew
      contradiction
    have hsame : SameContents (some i) p
        { p with catalog := (p.catalog.pageOrGrow heap n).2 } := by
      refine ⟨fun q => ?_, hgrown, fun _ => rfl, rfl, Catalog.pageSize_pageOrGrow _ _ _⟩
      cases hq : p.pages.get? q with
      | some page =>
        refine .inl (Eq.trans ?_ (visible?_of_cached hq).symm)
        exact visible?_of_cached hq
      | none =>
        have habsent : ({ p with catalog := (p.catalog.pageOrGrow heap n).2 } : Pool).visible? q =
            ((p.catalog.pageOrGrow heap n).2.stored? q).map (.ofStored q) := visible?_of_absent hq
        rw [habsent, visible?_of_absent hq]
        rcases hgrown q with hstored | ⟨hi, hnone, hzeros⟩
        · exact .inl (by rw [hstored])
        · exact .inr ⟨hi, by rw [hnone]; rfl, by rw [hzeros]; rfl⟩
    simp only
    rcases hgrow : p.catalog.pageOrGrow heap n with ⟨found, catalog⟩
    rw [hgrow] at hsame
    cases found with
    | error e => exact hsame
    | ok m => exact hsame

end SameContents

end Pool

end PagePool
