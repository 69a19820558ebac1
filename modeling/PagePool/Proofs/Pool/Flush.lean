import PagePool.Proofs.Pool.Agreement

namespace PagePool.Pool

variable {p p' : Pool} {l : Ledger} {q : PageId} {page : Page} {t : TransactionId}
  {catalog : Catalog}

/-- A flush leaves the locks, the tables and what is cached. -/
structure Flushes (p p' : Pool) : Prop where
  locks_eq : p'.locks = p.locks
  tables_eq : p'.catalog.tables = p.catalog.tables
  isCached_eq : ∀ q, p'.isCached q = p.isCached q

namespace Flushes

theorem refl (p : Pool) : Flushes p p := ⟨rfl, rfl, fun _ => rfl⟩

theorem trans {k : Pool} (h : Flushes p p') (h' : Flushes p' k) : Flushes p k :=
  ⟨h'.locks_eq.trans h.locks_eq, h'.tables_eq.trans h.tables_eq,
    fun q => (h'.isCached_eq q).trans (h.isCached_eq q)⟩

end Flushes

theorem isCached_settlePage (hq : p.isCached page.id = true) (on : Bool) (r : PageId) :
    (p.settlePage page on).isCached r = p.isCached r := by
  unfold isCached OrdMap.contains
  rw [get?_settlePage]
  split
  · rename_i hr
    rw [hr]
    exact hq.symm
  · rfl

/-- What a flush comes to: it writes nothing, it writes bytes of a cached page that their owner may
still take back, or it writes a clean page that the store has missed. -/
theorem flush_cases (p : Pool) (q : PageId)
    (howner : ∀ {page owner}, p.pages.get? q = some page → page.dirtiedBy = some owner →
      p.isActive owner = true) :
    (∃ journal, (p.flush q).2 = { p with journal }) ∨
    ∃ page catalog journal, p.pages.get? q = some page ∧ p.catalog.writePage page = .ok catalog ∧
      ((∃ owner, page.dirtiedBy = some owner ∧ (p.flush q).2 =
          { ({ p with journal } : Pool).noteWritten page.id catalog with
            unsynced := (p.unsynced.erase page.id).insert page.id }) ∨
        page.dirtiedBy = none ∧ (p.flush q).2 =
          (({ p with journal } : Pool).noteWritten page.id catalog).settlePage page true) := by
  unfold flush
  cases hq : p.pages.get? q with
  | none => exact .inl ⟨p.journal, rfl⟩
  | some page =>
    simp only
    cases hown : page.dirtiedBy with
    | some owner =>
      have hactive := howner hq hown
      rcases logFlush_eq p owner page with ⟨result, journal, hlog⟩
      simp only [flushDirty, hlog]
      cases result with
      | error e => exact .inl ⟨journal, rfl⟩
      | ok u =>
        simp only
        cases hw : p.catalog.writePage page with
        | error e => exact .inl ⟨journal, rfl⟩
        | ok catalog =>
          refine .inr ⟨page, catalog, journal, rfl, hw, .inl ⟨owner, hown, ?_⟩⟩
          have hactive' : (({ p with journal } : Pool).noteWritten page.id catalog).isActive owner =
              true := hactive
          simp only [hactive', if_true]
          rfl
    | none =>
      simp only [flushClean]
      split
      · cases hw : p.catalog.writePage page with
        | error e => exact .inl ⟨p.journal, rfl⟩
        | ok catalog => exact .inr ⟨page, catalog, p.journal, rfl, hw, .inr ⟨hown, rfl⟩⟩
      · exact .inl ⟨p.journal, rfl⟩

theorem Agrees.flush (h : p.Agrees l) (q : PageId) :
    (p.flush q).2.Agrees l ∧ Flushes p (p.flush q).2 := by
  have hresident := h.resident.flush q
  rcases flush_cases p q (fun hq hown => (h.owner hq hown).2) with
    ⟨journal, hf⟩ | ⟨page, catalog, journal, hq, hw, hrest⟩
  · rw [hf]
    exact ⟨h.congr rfl rfl rfl rfl rfl fun _ => id, rfl, rfl, fun _ => rfl⟩
  have hid := h.resident.id_eq hq
  subst hid
  obtain ⟨htables, hsize⟩ := Catalog.tables_writePage hw
  have hsound := Catalog.sound_writePage h.catalog hw
  have hstore := Catalog.stored?_writePage h.catalog hw
  have hother (r : PageId) (hr : r ≠ page.id) : catalog.stored? r = p.catalog.stored? r :=
    (hstore r).trans (if_neg hr)
  have hself : catalog.stored? page.id = some page.data := (hstore page.id).trans (if_pos rfl)
  rcases hrest with ⟨owner, hown, hf⟩ | ⟨hclean, hf⟩
  · -- its owner may still take the bytes back, so the page stays dirty and counts as unsynced
    rw [hf] at hresident ⊢
    refine ⟨h.put page.id page hresident rfl (fun _ => id) ?_ (fun _ _ => rfl) (fun _ _ _ => rfl)
      ?_ (h.before_eq hq) (h.clean_eq hq) ?_ ?_ hsound hsize hother ⟨_, hself, ?_⟩,
      rfl, htables, fun _ => rfl⟩
    · intro r
      split
      · rename_i hr
        rw [hr]
        exact hq
      · rfl
    · intro r hr
      exact (Resident.mem_insert_of_ne _ hr).trans (Resident.mem_erase_of_ne _ hr)
    · intro t d
      rw [h.pending_iff]
      simp [hq]
    · exact fun t ht => h.owner hq ht
    · exact fun hs => absurd (OrdSet.mem_insert.2 (.inl rfl)) hs
  · -- the store catches up with a commit that it refused before
    rw [hf] at hresident ⊢
    refine ⟨h.put page.id page hresident rfl (fun _ => id) (get?_settlePage _ _ _)
      (fun _ _ => rfl) (fun _ _ _ => rfl) (fun r hr => Resident.mem_erase_of_ne _ hr)
      (h.before_eq hq) (h.clean_eq hq) ?_ ?_ hsound hsize hother
      ⟨_, hself, fun _ => h.clean_eq hq hclean⟩, rfl, htables, ?_⟩
    · intro t d
      rw [h.pending_iff]
      simp [hq]
    · exact fun t ht => h.owner hq ht
    · exact isCached_settlePage (isCached_iff.2 ⟨page, hq⟩) true

/-- What every flush preserves holds after flushes in a row, up to the first that fails. -/
theorem flushEach_preserves {P : Pool → Prop} (hstep : ∀ {p} q, P p → P (p.flush q).2) (h : P p)
    (qs : List PageId) : P (p.flushEach qs).2 := by
  induction qs generalizing p with
  | nil => exact h
  | cons q qs ih =>
    have hfirst := hstep q h
    unfold flushEach
    rcases hf : p.flush q with ⟨result, p'⟩
    rw [hf] at hfirst
    cases result with
    | error e => exact hfirst
    | ok u => exact ih hfirst

/-- Flushes may come in any number; they change nothing that the ledger tells. -/
theorem Agrees.flushEach (h : p.Agrees l) (qs : List PageId) :
    (p.flushEach qs).2.Agrees l ∧ Flushes p (p.flushEach qs).2 := by
  refine flushEach_preserves (P := fun k => k.Agrees l ∧ Flushes p k) ?_ ⟨h, .refl p⟩ qs
  rintro k q ⟨hagrees, hflushes⟩
  obtain ⟨hagrees', hflushes'⟩ := hagrees.flush q
  exact ⟨hagrees', hflushes.trans hflushes'⟩

end PagePool.Pool
