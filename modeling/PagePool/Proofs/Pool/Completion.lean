import PagePool.Proofs.Pool.Agreement

namespace PagePool.Pool

variable {p p' : Pool} {l l' : Ledger} {q r : PageId} {page : Page} {t u : TransactionId}
  {catalog : Catalog}

/-! The pages that a transaction has changed. -/

theorem mem_dirtiedBy (h : p.Resident) :
    page ∈ p.dirtiedBy t ↔ p.pages.get? page.id = some page ∧ page.dirtiedBy = some t := by
  simp only [dirtiedBy, List.mem_filter, OrdMap.mem_values, beq_iff_eq]
  refine and_congr_left fun _ => ?_
  constructor
  · rintro ⟨q, hq⟩
    rwa [← h.id_eq hq] at hq
  · intro hq
    exact ⟨page.id, hq⟩

theorem dirtyPages_ascending (h : p.Resident) (t : TransactionId) :
    (p.dirtyPages t).Pairwise fun a b => Key.rank a < Key.rank b := by
  have hsub : (p.dirtyPages t).Sublist (p.pages.values.map Page.id) :=
    List.filter_sublist.map Page.id
  rw [OrdMap.map_values_eq_keys h.id_eq] at hsub
  exact p.pages.keys_ascending.sublist hsub

theorem nodup_dirtyPages (h : p.Resident) (t : TransactionId) : (p.dirtyPages t).Nodup := by
  refine (dirtyPages_ascending h t).imp ?_
  intro a b hab heq
  exact Nat.lt_irrefl _ (heq ▸ hab)

theorem Agrees.pending_eq_none_of_not_dirty (h : p.Agrees l) (hr : r ∉ p.dirtyPages t) :
    l.pending t r = none := by
  apply h.pending_eq_none_iff.2
  intro page hq ht
  have hid := h.resident.id_eq hq
  subst hid
  exact hr (List.mem_map_of_mem ((mem_dirtiedBy h.resident).2 ⟨hq, ht⟩))

/-! Handling pages one after the other. -/

theorem forEachPage_preserves {P : Pool → Prop} {handle : Pool → Page → Except Error Unit × Pool}
    (hstep : ∀ p page, P p → P (handle p page).2) (h : P p) (pages : List Page) :
    P (forEachPage handle p pages).2 := by
  induction pages generalizing p with
  | nil => exact h
  | cons page pages ih => exact ih (hstep p page h)

/-- What holds of each changed page as its turn comes holds of the pool at the end: a page that
waits its turn is not touched by the others'. -/
theorem forEachPage_agrees {handle : Pool → Page → Except Error Unit × Pool}
    (update : Ledger → PageId → Ledger)
    (hstep : ∀ {p l page}, p.Agrees l → p.pages.get? page.id = some page →
      page.dirtiedBy = some t → (handle p page).2.Agrees (update l page.id))
    (hother : ∀ {p page r}, r ≠ page.id → (handle p page).2.pages.get? r = p.pages.get? r)
    (h : p.Agrees l) (pages : List Page) (hnodup : (pages.map Page.id).Nodup)
    (hpages : ∀ page ∈ pages, p.pages.get? page.id = some page ∧ page.dirtiedBy = some t) :
    (forEachPage handle p pages).2.Agrees ((pages.map Page.id).foldl update l) := by
  induction pages generalizing p l with
  | nil => exact h
  | cons page pages ih =>
    rw [List.map_cons, List.nodup_cons] at hnodup
    obtain ⟨hq, ht⟩ := hpages page List.mem_cons_self
    refine ih (hstep h hq ht) hnodup.2 ?_
    intro other hmem
    have hne : other.id ≠ page.id := fun he => hnodup.1 (he ▸ List.mem_map_of_mem hmem)
    rw [hother hne]
    exact hpages other (List.mem_cons_of_mem _ hmem)

namespace Agrees

/-- The page of a transaction is settled on the bytes that the ledger then has committed. -/
theorem settle (h : p.Agrees l) (hq : p.pages.get? q = some page) (ht : page.dirtiedBy = some t)
    (d : Bytes) (hresident : p'.Resident) (hlocks : p'.locks = p.locks)
    (hactive : p'.active = p.active)
    (hpages : ∀ r, p'.pages.get? r = if r = q then some (.ofStored q d) else p.pages.get? r)
    (hcommitted : ∀ r, l'.committed r = if r = q then d else l.committed r)
    (hpending : ∀ u r, l'.pending u r = if u = t ∧ r = q then none else l.pending u r)
    (hunsynced : ∀ r, r ≠ q → (r ∈ p'.unsynced ↔ r ∈ p.unsynced))
    (hcatalog : p'.catalog.Sound) (hsize : p'.catalog.pageSize = p.catalog.pageSize)
    (hstored : ∀ r, r ≠ q → p'.catalog.stored? r = p.catalog.stored? r)
    (hstore : ∃ d', p'.catalog.stored? q = some d' ∧ (q ∉ p'.unsynced → d' = d)) :
    p'.Agrees l' := by
  have hself : l'.committed q = d := by rw [hcommitted, if_pos rfl]
  have hsame (u : TransactionId) (hu : p.isActive u = true) : p'.isActive u = true := by
    rw [isActive, hactive]
    exact hu
  refine h.put q (.ofStored q d) hresident hlocks hsame hpages ?_ ?_ hunsynced hself.symm
    (fun _ => hself.symm) ?_ nofun hcatalog hsize hstored ?_
  · intro r hr
    rw [hcommitted, if_neg hr]
  · intro u r hr
    rw [hpending, if_neg fun hu => hr hu.2]
  · intro u d'
    have hnone : l'.pending u q = none := by
      rw [hpending]
      split
      · rfl
      · rename_i hu
        have hheld := h.locks.holds_of_isWriter (h.owner hq ht).1
        exact h.pending_eq_none hheld fun he => hu ⟨he.symm, rfl⟩
    rw [hnone]
    constructor
    · nofun
    · rintro ⟨hu, -⟩
      contradiction
  · rw [hself]
    exact hstore

theorem writeCommitted (h : p.Agrees l) (hq : p.pages.get? page.id = some page)
    (ht : page.dirtiedBy = some t) :
    (p.writeCommitted page).2.Agrees (l.commitPage t page.id) := by
  have hresident := h.resident.writeCommitted (isCached_iff.2 ⟨page, hq⟩)
  have hview : l.view t page.id = page.data :=
    Ledger.view_eq_of_pending (h.pending_iff.2 ⟨page, hq, ht, rfl⟩)
  have hcommitted (r : PageId) : (l.commitPage t page.id).committed r =
      if r = page.id then page.data else l.committed r := by
    rw [← hview]
    rfl
  have hpages := get?_writeCommitted p page
  obtain ⟨stored, hstored⟩ :=
    Option.isSome_iff_exists.1 (h.stored_of_cached (isCached_iff.2 ⟨page, hq⟩))
  unfold Pool.writeCommitted at hresident hpages ⊢
  cases hw : p.catalog.writePage page with
  | ok catalog =>
    rw [hw] at hresident hpages
    obtain ⟨-, hsize⟩ := Catalog.tables_writePage hw
    have hstore := Catalog.stored?_writePage h.catalog hw
    refine h.settle hq ht page.data hresident rfl rfl hpages hcommitted (fun _ _ => rfl)
      (fun r hr => Resident.mem_erase_of_ne _ hr) (Catalog.sound_writePage h.catalog hw) hsize
      ?_ ⟨page.data, ?_, fun _ => rfl⟩
    · intro r hr
      exact (hstore r).trans (if_neg hr)
    · exact (hstore page.id).trans (if_pos rfl)
  | error e =>
    rw [hw] at hresident hpages
    refine h.settle hq ht page.data hresident rfl rfl hpages hcommitted (fun _ _ => rfl)
      (fun r hr => Resident.mem_insert_of_ne _ hr) h.catalog rfl (fun _ _ => rfl)
      ⟨stored, hstored, ?_⟩
    -- the store is behind, and the page is marked for it
    intro hsynced
    exact absurd (OrdSet.mem_insert.2 (.inl rfl)) hsynced

theorem rollBack (h : p.Agrees l) (hq : p.pages.get? page.id = some page)
    (ht : page.dirtiedBy = some t) : (p.rollBack page).2.Agrees (l.abortPage t page.id) := by
  have hresident := h.resident.rollBack (isCached_iff.2 ⟨page, hq⟩)
  have hbefore := h.before_eq hq
  have hcommitted (r : PageId) : (l.abortPage t page.id).committed r =
      if r = page.id then page.before else l.committed r := by
    split
    · rename_i hr
      rw [hr, hbefore]
      rfl
    · rfl
  have hpages := get?_rollBack p page
  obtain ⟨stored, hstored⟩ :=
    Option.isSome_iff_exists.1 (h.stored_of_cached (isCached_iff.2 ⟨page, hq⟩))
  unfold Pool.rollBack at hresident hpages ⊢
  by_cases hm : p.unsynced.contains page.id = true
  · -- an early flush has left bytes in the store that must not stay there
    simp only [hm, if_true] at hresident hpages ⊢
    cases hw : p.catalog.writePage page.beforeImage with
    | ok catalog =>
      rw [hw] at hresident hpages
      obtain ⟨-, hsize⟩ := Catalog.tables_writePage hw
      have hstore := Catalog.stored?_writePage h.catalog hw
      refine h.settle hq ht page.before hresident rfl rfl hpages hcommitted (fun _ _ => rfl)
        (fun r hr => Resident.mem_erase_of_ne _ hr) (Catalog.sound_writePage h.catalog hw) hsize
        ?_ ⟨page.before, ?_, fun _ => rfl⟩
      · intro r hr
        exact (hstore r).trans (if_neg hr)
      · exact (hstore page.id).trans (if_pos rfl)
    | error e =>
      rw [hw] at hresident hpages
      refine h.settle hq ht page.before hresident rfl rfl hpages hcommitted (fun _ _ => rfl)
        (fun _ _ => Iff.rfl) h.catalog rfl (fun _ _ => rfl) ⟨stored, hstored, ?_⟩
      exact fun hsynced => absurd hm hsynced
  · -- the store never lost the committed bytes
    simp only [hm] at hresident hpages ⊢
    refine h.settle hq ht page.before hresident rfl rfl hpages hcommitted (fun _ _ => rfl)
      (fun _ _ => Iff.rfl) h.catalog rfl (fun _ _ => rfl) ⟨stored, hstored, ?_⟩
    intro hsynced
    rw [hbefore]
    exact h.stored_eq hsynced hstored

/-- A transaction without changed pages may give up all its locks. -/
theorem finish (h : p.Agrees l) (hnone : ∀ q, l.pending t q = none) :
    ((p.deactivate t).releaseAll t).Agrees l := by
  have hother {u : TransactionId} {q : PageId} {page : Page} (hq : p.pages.get? q = some page)
      (hu : page.dirtiedBy = some u) : u ≠ t := by
    rintro rfl
    exact h.pending_eq_none_iff.1 (hnone q) page hq hu
  refine { h with
    locks := h.locks.releaseAll t
    resident := h.resident.of_cache rfl rfl rfl
    owner := ?_ }
  intro u q page hq hu
  obtain ⟨hw, hactive⟩ := h.owner hq hu
  exact ⟨LockTable.isWriter_releaseAll (hother hq hu) hw,
    OrdSet.mem_erase.2 ⟨hother hq hu, hactive⟩⟩

theorem writeCommitted_all (h : p.Agrees l) (t : TransactionId) :
    (forEachPage Pool.writeCommitted p (p.dirtiedBy t)).2.Agrees (l.commit t) := by
  have hfold : (p.dirtyPages t).foldl (Ledger.commitPage t) l = l.commit t :=
    Ledger.foldl_commitPage fun _ => h.pending_eq_none_of_not_dirty
  rw [← hfold]
  refine forEachPage_agrees (Ledger.commitPage t) ?_ ?_ h _
    (nodup_dirtyPages h.resident t) fun page => (mem_dirtiedBy h.resident).1
  · exact fun h => h.writeCommitted
  · intro p page r hr
    rw [get?_writeCommitted, if_neg hr]

theorem rollBack_all (h : p.Agrees l) (t : TransactionId) :
    (forEachPage Pool.rollBack p (p.dirtiedBy t)).2.Agrees (l.abort t) := by
  have hfold : (p.dirtyPages t).foldl (Ledger.abortPage t) l = l.abort t :=
    Ledger.foldl_abortPage fun _ => h.pending_eq_none_of_not_dirty
  rw [← hfold]
  refine forEachPage_agrees (Ledger.abortPage t) ?_ ?_ h _
    (nodup_dirtyPages h.resident t) fun page => (mem_dirtiedBy h.resident).1
  · exact fun h => h.rollBack
  · intro p page r hr
    rw [get?_rollBack, if_neg hr]

theorem withJournal (h : p.Agrees l) (journal : Journal) : ({ p with journal } : Pool).Agrees l :=
  h.congr rfl rfl rfl rfl rfl fun _ => id

end Agrees

/-- What a completion does to the ledger. Only a commit whose log was forced counts. -/
def completed (p : Pool) (l : Ledger) (t : TransactionId) (commit : Bool) : Ledger :=
  if commit then
    match (p.logCommit t).1 with
    | .ok _ => l.commit t
    | .error _ => l
  else l.abort t

/-- A commit stops at a log that refuses it, or writes the changed pages and finishes. -/
theorem commit_cases (p : Pool) (t : TransactionId) :
    (∃ e journal, (p.logCommit t).1 = .error e ∧ p.commit t = (.error e, { p with journal })) ∨
    ∃ journal, ∃ stats : Statistics, (p.logCommit t).1 = .ok () ∧
      (p.commit t).1 = (forEachPage writeCommitted { p with journal } (p.dirtiedBy t)).1 ∧
      (p.commit t).2 =
        { ((forEachPage writeCommitted { p with journal } (p.dirtiedBy t)).2.deactivate
            t).releaseAll t with stats } := by
  rcases logCommit_eq p t with ⟨result, journal, hlog⟩
  simp only [commit, hlog]
  cases result with
  | error e => exact .inl ⟨e, journal, rfl, rfl⟩
  | ok u => exact .inr ⟨journal, _, rfl, rfl, rfl⟩

theorem Agrees.commit (h : p.Agrees l) (t : TransactionId) :
    (p.commit t).2.Agrees (p.completed l t true) := by
  simp only [completed, if_true]
  rcases commit_cases p t with ⟨e, journal, hlog, hc⟩ | ⟨journal, stats, hlog, -, hc⟩
  · rw [hlog, hc]
    exact h.withJournal journal
  · rw [hlog, hc]
    have hwritten := (h.withJournal journal).writeCommitted_all t
    have hdone := hwritten.finish (t := t) fun q => if_pos rfl
    exact hdone.congr rfl rfl rfl rfl rfl fun _ => id

/-- An abort rolls back, logs that or fails to, and finishes; of a transaction that has completed
it takes the locks only. -/
theorem abort_cases (p : Pool) (t : TransactionId) :
    (p.isActive t = true ∧ ∃ journal, ∃ stats : Statistics, (p.abort t).2 =
      { (({ (forEachPage rollBack p (p.dirtiedBy t)).2 with journal } : Pool).deactivate
          t).releaseAll t with stats }) ∨
    p.isActive t ≠ true ∧ (p.abort t).2 = p.releaseAll t := by
  by_cases ht : p.isActive t = true
  · refine .inl ⟨ht, ?_⟩
    simp only [abort, ht, if_true]
    rcases forEachPage rollBack p (p.dirtiedBy t) with ⟨restored, p₁⟩
    cases happend : p₁.journal.append (.abort t) with
    | error e =>
      exact ⟨p₁.journal, _, rfl⟩
    | ok journal =>
      exact ⟨journal, _, rfl⟩
  · exact .inr ⟨ht, by simp only [abort, ht]; rfl⟩

/-- A transaction that is not active has no changed pages. -/
theorem Agrees.pending_eq_none_of_inactive (h : p.Agrees l) (ht : p.isActive t ≠ true)
    (q : PageId) : l.pending t q = none := by
  apply h.pending_eq_none_iff.2
  intro page hq hu
  exact ht (h.owner hq hu).2

theorem Agrees.abort (h : p.Agrees l) (t : TransactionId) :
    (p.abort t).2.Agrees (p.completed l t false) := by
  simp only [completed, Bool.false_eq_true, if_false]
  rcases abort_cases p t with ⟨-, journal, stats, habort⟩ | ⟨ht, habort⟩
  · rw [habort]
    have hdone := ((h.rollBack_all t).withJournal journal).finish (t := t) fun q => if_pos rfl
    exact hdone.congr rfl rfl rfl rfl rfl fun _ => id
  · have hnone := h.pending_eq_none_of_inactive ht
    rw [Ledger.abort_eq_self hnone, habort]
    refine (h.finish (t := t) hnone).congr rfl rfl rfl rfl rfl ?_
    intro u hu
    exact (OrdSet.mem_erase.1 hu).2

theorem Agrees.complete (h : p.Agrees l) (t : TransactionId) (commit : Bool) :
    (p.complete t commit).2.Agrees (p.completed l t commit) := by
  cases commit with
  | true => exact h.commit t
  | false => exact h.abort t

/-- What a completion leaves to the others: its locks apart, it works on the cache, the log and
the bytes in the store. -/
structure Completes (t : TransactionId) (p p' : Pool) : Prop where
  tables_eq : p'.catalog.tables = p.catalog.tables
  holds_eq : ∀ {u q}, u ≠ t → p'.locks.holds u q = p.locks.holds u q
  isCached : ∀ {q}, p.isCached q = true → p'.isCached q = true

theorem forEachPage_keeps {handle : Pool → Page → Except Error Unit × Pool}
    (hstep : ∀ p page, (handle p page).2.catalog.tables = p.catalog.tables ∧
      (handle p page).2.locks = p.locks ∧
      ∀ q, p.isCached q = true → (handle p page).2.isCached q = true) (pages : List Page) :
    (forEachPage handle p pages).2.catalog.tables = p.catalog.tables ∧
      (forEachPage handle p pages).2.locks = p.locks ∧
      ∀ q, p.isCached q = true → (forEachPage handle p pages).2.isCached q = true := by
  refine forEachPage_preserves (P := fun k => k.catalog.tables = p.catalog.tables ∧
    k.locks = p.locks ∧ ∀ q, p.isCached q = true → k.isCached q = true) ?_
    ⟨rfl, rfl, fun _ => id⟩ pages
  rintro k page ⟨htables, hlocks, hcached⟩
  obtain ⟨htables', hlocks', hcached'⟩ := hstep k page
  exact ⟨htables'.trans htables, hlocks'.trans hlocks, fun q hq => hcached' q (hcached q hq)⟩

theorem isCached_of_get? (hpages : ∀ r, p'.pages.get? r = if r = q then some page else p.pages.get? r)
    (hr : p.isCached r = true) : p'.isCached r = true := by
  rw [isCached_iff] at hr ⊢
  rw [hpages]
  split
  · exact ⟨page, rfl⟩
  · exact hr

theorem writeCommitted_keeps (p : Pool) (page : Page) :
    (p.writeCommitted page).2.catalog.tables = p.catalog.tables ∧
      (p.writeCommitted page).2.locks = p.locks ∧
      ∀ q, p.isCached q = true → (p.writeCommitted page).2.isCached q = true := by
  refine ⟨?_, ?_, fun q => isCached_of_get? (get?_writeCommitted p page)⟩
  · unfold writeCommitted
    cases hw : p.catalog.writePage page with
    | ok catalog => exact (Catalog.tables_writePage hw).1
    | error e => rfl
  · unfold writeCommitted
    split <;> rfl

theorem rollBack_keeps (p : Pool) (page : Page) :
    (p.rollBack page).2.catalog.tables = p.catalog.tables ∧
      (p.rollBack page).2.locks = p.locks ∧
      ∀ q, p.isCached q = true → (p.rollBack page).2.isCached q = true := by
  refine ⟨?_, ?_, fun q => isCached_of_get? (get?_rollBack p page)⟩
  · unfold rollBack
    split
    · cases hw : p.catalog.writePage page.beforeImage with
      | ok catalog => exact (Catalog.tables_writePage hw).1
      | error e => rfl
    · rfl
  · unfold rollBack
    split
    · split <;> rfl
    · rfl

theorem completes_commit (p : Pool) (t : TransactionId) : Completes t p (p.commit t).2 := by
  rcases commit_cases p t with ⟨e, journal, -, hc⟩ | ⟨journal, stats, -, -, hc⟩
  · rw [hc]
    exact ⟨rfl, fun _ => rfl, id⟩
  · obtain ⟨htables, hlocks, hcached⟩ := forEachPage_keeps (p := { p with journal })
      writeCommitted_keeps (p.dirtiedBy t)
    rw [hc]
    refine ⟨htables, ?_, fun {q} hq => hcached q hq⟩
    intro u q hu
    have hsame := congrArg (fun k : LockTable => k.holds u q) hlocks
    exact (LockTable.holds_releaseAll_of_ne hu).trans hsame

theorem completes_abort (p : Pool) (t : TransactionId) : Completes t p (p.abort t).2 := by
  rcases abort_cases p t with ⟨-, journal, stats, habort⟩ | ⟨-, habort⟩
  · obtain ⟨htables, hlocks, hcached⟩ := forEachPage_keeps (p := p) rollBack_keeps (p.dirtiedBy t)
    rw [habort]
    refine ⟨htables, ?_, fun {q} hq => hcached q hq⟩
    intro u q hu
    have hsame := congrArg (fun k : LockTable => k.holds u q) hlocks
    exact (LockTable.holds_releaseAll_of_ne hu).trans hsame
  · rw [habort]
    exact ⟨rfl, LockTable.holds_releaseAll_of_ne, id⟩

theorem completes (p : Pool) (t : TransactionId) (commit : Bool) :
    Completes t p (p.complete t commit).2 := by
  cases commit with
  | true => exact completes_commit p t
  | false => exact completes_abort p t

theorem pending_completed (commit : Bool) (hu : u ≠ t) :
    (p.completed l t commit).pending u q = l.pending u q := by
  unfold completed
  split
  · split
    · exact if_neg hu
    · rfl
  · exact if_neg hu

/-- A completion commits nothing on a page that its transaction has not set. -/
theorem committed_completed (commit : Bool) (hnone : l.pending t q = none) :
    (p.completed l t commit).committed q = l.committed q := by
  unfold completed
  split
  · split
    · exact Ledger.view_eq_of_not_pending hnone
    · rfl
  · rfl

/-- A completion changes the view of no other transaction on the pages that it holds. -/
theorem view_completed (h : p.Agrees l) (commit : Bool) (hu : u ≠ t)
    (hheld : p.locks.holds u q = true) : (p.completed l t commit).view u q = l.view u q :=
  Ledger.view_congr (committed_completed commit (h.pending_eq_none hheld hu))
    (pending_completed commit hu)

end PagePool.Pool
