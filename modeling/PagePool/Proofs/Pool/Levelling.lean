import PagePool.Proofs.Pool.Outcomes

namespace PagePool

namespace Pool

/-- Nothing but the store and the log tells two pools apart: the same pages are cached with the same
bytes, owners and before-images, and the same transactions are active and hold the same locks. -/
structure Alike (p p' : Pool) : Prop where
  pages_eq : ∀ q, p'.pages.get? q = p.pages.get? q
  active_eq : p'.active = p.active
  locks_eq : p'.locks = p.locks

/-- The store has the bytes of the page that the cache has. -/
def Level (p : Pool) (q : PageId) : Prop :=
  ∀ page, p.pages.get? q = some page → p.catalog.stored? q = some page.data

variable {p p' : Pool} {l : Ledger} {q r : PageId} {qs : List PageId} {t : TransactionId}
  {commit : Bool}

namespace Alike

theorem refl (p : Pool) : Alike p p := ⟨fun _ => rfl, rfl, rfl⟩

theorem trans {k : Pool} (h : Alike p p') (h' : Alike p' k) : Alike p k :=
  ⟨fun q => (h'.pages_eq q).trans (h.pages_eq q), h'.active_eq.trans h.active_eq,
    h'.locks_eq.trans h.locks_eq⟩

theorem flush (h : p.Agrees l) (q : PageId) : Alike p (p.flush q).2 := by
  rcases flush_cases p q (fun hq hown => (h.owner hq hown).2) with
    ⟨journal, hf⟩ | ⟨page, catalog, journal, hq, -, ⟨owner, -, hf⟩ | ⟨-, hf⟩⟩
  · rw [hf]
    exact ⟨fun _ => rfl, rfl, rfl⟩
  · rw [hf]
    exact ⟨fun _ => rfl, rfl, rfl⟩
  · -- the page is settled as what it was
    rw [hf]
    refine ⟨fun r => ?_, rfl, rfl⟩
    rw [get?_settlePage, h.resident.id_eq hq]
    split
    · rename_i hr
      rw [hr]
      exact hq.symm
    · rfl

theorem flushEach (h : p.Agrees l) (qs : List PageId) : Alike p (p.flushEach qs).2 := by
  refine (flushEach_preserves (P := fun k => k.Agrees l ∧ Alike p k) ?_ ⟨h, .refl p⟩ qs).2
  rintro k q ⟨hagrees, halike⟩
  exact ⟨(hagrees.flush q).1, halike.trans (flush hagrees q)⟩

end Alike

namespace Level

/-- A flush of any page leaves the level ones level, also if it fails. -/
theorem flush (hl : p.Level r) (h : p.Agrees l) (q : PageId) : (p.flush q).2.Level r := by
  intro page hr
  rw [(Alike.flush h q).pages_eq] at hr
  have hstored := hl page hr
  rcases flush_cases p q (fun hq hown => (h.owner hq hown).2) with
    ⟨journal, hf⟩ | ⟨written, catalog, journal, hq, hw, hrest⟩
  · rw [hf]
    exact hstored
  have hwritten : catalog.stored? r = some page.data := by
    rw [Catalog.stored?_writePage h.catalog hw, h.resident.id_eq hq]
    split
    · rename_i he
      rw [he, hq] at hr
      rw [Option.some.inj hr]
    · exact hstored
  rcases hrest with ⟨owner, -, hf⟩ | ⟨-, hf⟩
  · rw [hf]
    exact hwritten
  · rw [hf]
    exact hwritten

/-- A flush that succeeds makes its page level. A clean page may be skipped, as the store has missed
nothing of it. -/
theorem of_flush (h : p.Agrees l) (hok : (p.flush q).1 = .ok ()) : (p.flush q).2.Level q := by
  intro page hq
  rw [(Alike.flush h q).pages_eq] at hq
  have hid := h.resident.id_eq hq
  subst hid
  have hwritten {catalog : Catalog} (hw : p.catalog.writePage page = .ok catalog) :
      catalog.stored? page.id = some page.data :=
    (Catalog.stored?_writePage h.catalog hw page.id).trans (if_pos rfl)
  simp only [Pool.flush, hq] at hok ⊢
  cases hown : page.dirtiedBy with
  | some owner =>
    obtain ⟨result, journal, hlog⟩ := logFlush_eq p owner page
    simp only [hown, flushDirty, hlog] at hok ⊢
    cases result with
    | error e => contradiction
    | ok u =>
      simp only at hok ⊢
      cases hw : p.catalog.writePage page with
      | error e =>
        simp only [hw] at hok
        contradiction
      | ok catalog =>
        simp only
        split
        · exact hwritten hw
        · exact hwritten hw
  | none =>
    simp only [hown, flushClean] at hok ⊢
    by_cases hm : p.unsynced.contains page.id = true
    · rw [if_pos hm] at hok ⊢
      cases hw : p.catalog.writePage page with
      | error e =>
        rw [hw] at hok
        contradiction
      | ok catalog => exact hwritten hw
    · rw [if_neg hm, h.clean_eq hq hown]
      exact h.stored_of_synced (isCached_iff.2 ⟨page, hq⟩) hm

/-- Flushes that all succeed make their pages level, and those that were stay so. -/
theorem flushEach (h : p.Agrees l) (hok : (p.flushEach qs).1 = .ok ()) (hq : q ∈ qs ∨ p.Level q) :
    (p.flushEach qs).2.Level q := by
  induction qs generalizing p with
  | nil => exact hq.resolve_left List.not_mem_nil
  | cons r qs ih =>
    have hagrees := (h.flush r).1
    have hfirst : (p.flush r).1 = .ok () → q ∈ qs ∨ (p.flush r).2.Level q := by
      intro hok
      rcases hq with hq | hl
      · rcases List.mem_cons.1 hq with rfl | hq
        · exact .inr (of_flush h hok)
        · exact .inl hq
      · exact .inr (hl.flush h r)
    unfold Pool.flushEach at hok ⊢
    rcases hf : p.flush r with ⟨result, p'⟩
    rw [hf] at hagrees hfirst hok
    cases result with
    | error e => contradiction
    | ok u => exact ih hagrees hok (hfirst rfl)

theorem flushAll (h : p.Agrees l) (hok : p.flushAll.1 = .ok ()) (q : PageId) :
    p.flushAll.2.Level q := by
  intro page hq
  have hcached := hq
  rw [Pool.flushAll, (Alike.flushEach h p.pages.keys).pages_eq] at hcached
  have hkey : q ∈ p.pages.keys := OrdMap.contains_iff.1 (isCached_iff.2 ⟨page, hcached⟩)
  exact flushEach h hok (.inl hkey) page hq

end Level

/-- A completion that leaves its transaction active has failed at the log, and counts for nothing. -/
theorem completed_of_isActive (hv : p.locks.Valid) (ht : p.isActive t = true)
    (hstill : (p.complete t commit).2.isActive t = true) : p.completed l t commit = l := by
  have hnot (he : Ends t p (p.complete t commit).2) : False := by
    rw [he.isActive_eq, if_pos rfl] at hstill
    contradiction
  cases commit with
  | true =>
    cases hlog : (p.logCommit t).1 with
    | error e => simp only [completed, hlog, if_true]
    | ok u => exact (hnot (.commit hv hlog)).elim
  | false => exact (hnot (.abort hv ht)).elim

/-- An abort leaves in the store what is committed on a page that its transaction has changed, if the
store takes the page. -/
theorem stored_of_abort (h : p.Agrees l) (hi : p.Intact) (hq : q ∈ p.dirtyPages t)
    (htaken : ∀ x ∈ p.abortWrites t, x.page.id = q → ¬ x.Refused) :
    (p.abort t).2.catalog.stored? q = some (l.committed q) := by
  obtain ⟨page, hpage, rfl⟩ := List.mem_map.1 hq
  obtain ⟨hcached, hdirty⟩ := (mem_dirtiedBy h.resident).1 hpage
  have ht := (h.owner hcached hdirty).2
  have hstanding := (outcome_abort hi h.locks ht).changed page hpage
  have hstored : (p.abort t).2.catalog.stored? page.id = (p.rolledBackStanding page).stored :=
    congrArg Standing.stored hstanding
  rw [hstored, rolledBackStanding]
  by_cases hm : p.unsynced.contains page.id = true
  · obtain ⟨x, hx, hwritten, hiff⟩ := exists_abortWrite hi ht hpage hm
    have hid : x.page.id = page.beforeImage.id := congrArg Page.id hwritten
    have htake : p.catalog.refusal? page.beforeImage = none := by
      rw [Option.eq_none_iff_forall_ne_some]
      exact fun e he => htaken x hx hid (hiff.2 ⟨e, he⟩)
    rw [if_pos hm, htake, ← h.before_eq hcached]
  · rw [if_neg hm]
    exact h.stored_of_synced (isCached_iff.2 ⟨page, hcached⟩) hm

end Pool

/-- A flush of one page, of all pages or of the pages of one transaction. -/
def Action.IsFlush : Action → Prop
  | .flush _ => True
  | .flushAll => True
  | .flushOf _ => True
  | _ => False

namespace World

variable {w start : World} {p : Pool} {capacity : Nat} {catalog : Catalog} {journal : Journal}
  {a : Action} {t : TransactionId} {q : PageId}

/-- An orderly step after which the transaction is active. -/
def StaysActive (t : TransactionId) (w : World) (a : Action) : Prop :=
  w.Orderly a ∧ (w.perform a).pool.isActive t = true

instance (t : TransactionId) (w : World) (a : Action) : Decidable (w.StaysActive t a) :=
  inferInstanceAs (Decidable (_ ∧ _))

theorem orderly_flush (ha : a.IsFlush) : w.Orderly a := by
  cases a with
  | flush | flushAll | flushOf => trivial
  | _ => exact ha.elim

theorem ledger_flush (ha : a.IsFlush) : (w.perform a).ledger = w.ledger := by
  cases a with
  | flush | flushAll | flushOf => rfl
  | _ => exact ha.elim

theorem Consistent.alike_flush (h : w.Consistent) (ha : a.IsFlush) :
    w.pool.Alike (w.perform a).pool := by
  cases a with
  | flush q => exact .flush h.agrees q
  | flushAll => exact .flushEach h.agrees _
  | flushOf t => exact .flushEach h.agrees _
  | _ => exact ha.elim

/-- What a transaction has changed stays changed, and what is committed there stays committed, while
the transaction is active. -/
theorem Consistent.pending_stays (h : w.Consistent) (ha : w.StaysActive t a)
    (hset : (w.ledger.pending t q).isSome = true) :
    ((w.perform a).ledger.pending t q).isSome = true ∧
      (w.perform a).ledger.committed q = w.ledger.committed q := by
  obtain ⟨-, hactive⟩ := ha
  rw [ledger_perform]
  cases a with
  | turn i =>
    obtain ⟨u, hadvances⟩ := advances_turn h i
    exact ⟨hadvances.pending_stays hset, congrFun hadvances.committed_eq q⟩
  | complete u commit =>
    by_cases hu : t = u
    · subst hu
      have ht : w.pool.isActive t = true := by
        by_contra hnot
        rw [h.agrees.pending_eq_none_of_inactive hnot] at hset
        contradiction
      have hsame : w.pool.completed w.ledger t commit = w.ledger :=
        Pool.completed_of_isActive h.agrees.locks ht hactive
      simp only [hsame, and_true]
      exact hset
    · have hnone := h.agrees.pending_eq_none (h.agrees.holds_of_pending hset) hu
      refine ⟨?_, Pool.committed_completed commit hnone⟩
      simpa only [Pool.pending_completed commit hu] using hset
  | _ => exact ⟨hset, rfl⟩

theorem Reaches.pending_stays (hw : Reaches (StaysActive t) start w) (h : start.Consistent)
    (hset : (start.ledger.pending t q).isSome = true) :
    (w.ledger.pending t q).isSome = true ∧ w.ledger.committed q = start.ledger.committed q := by
  induction hw with
  | refl => exact ⟨hset, rfl⟩
  | step hprev ha ih =>
    have hconsistent := hprev.consistent (fun _ _ ha => ha.1) h
    obtain ⟨hstill, hsame⟩ := hconsistent.pending_stays ha ih.1
    exact ⟨hstill, hsame.trans ih.2⟩

theorem Consistent.mem_dirtyPages (h : w.Consistent) :
    q ∈ w.pool.dirtyPages t ↔ (w.ledger.pending t q).isSome = true := by
  rw [Option.isSome_iff_exists]
  constructor
  · intro hq
    obtain ⟨page, hpage, rfl⟩ := List.mem_map.1 hq
    obtain ⟨hcached, hdirty⟩ := (Pool.mem_dirtiedBy h.agrees.resident).1 hpage
    exact ⟨page.data, h.agrees.pending_iff.2 ⟨page, hcached, hdirty, rfl⟩⟩
  · rintro ⟨d, hd⟩
    obtain ⟨page, hcached, hdirty, -⟩ := h.agrees.pending_iff.1 hd
    have hid := h.agrees.resident.id_eq hcached
    subst hid
    exact List.mem_map_of_mem ((Pool.mem_dirtiedBy h.agrees.resident).2 ⟨hcached, hdirty⟩)

/-- Once all pages have been flushed without failure, the store has every cached page as the cache
has it. Otherwise a flush cannot be told, whether or not it succeeds: it leaves the cached pages,
their owners and before-images, the active transactions and the locks. What a transaction has changed
by then can still be taken back: as long as it is active, its abort leaves in the store the committed
bytes of every page that it has changed and that the store does not refuse. -/
theorem flush_levels_unseen (hs : catalog.Sound)
    (hp : Pool.make capacity catalog journal = .ok p) (hw : Reaches Orderly (ofPool p) w) :
    (w.pool.flushAll.1 = .ok () → ∀ q, (w.perform .flushAll).pool.Level q) ∧
    ∀ a : Action, a.IsFlush →
      w.pool.Alike (w.perform a).pool ∧
      ∀ t w', Reaches (StaysActive t) (w.perform a) w' →
        (∀ q ∈ w.pool.dirtyPages t,
          q ∈ w'.pool.dirtyPages t ∧ w'.ledger.committed q = w.ledger.committed q) ∧
        ∀ q ∈ w'.pool.dirtyPages t,
          (∀ x ∈ w'.writes (.complete t false), x.page.id = q → ¬ x.Refused) →
          (w'.perform (.complete t false)).pool.catalog.stored? q =
            some (w'.ledger.committed q) := by
  have hconsistent := hw.consistent (fun _ _ => id) (consistent_ofPool hs hp)
  have hsturdy := hw.sturdy (sturdy_ofPool hs hp)
  refine ⟨fun hok q => .flushAll hconsistent.agrees hok q, fun a ha => ?_⟩
  have hflushed := hconsistent.perform (orderly_flush ha)
  refine ⟨hconsistent.alike_flush ha, fun t w' hw' => ⟨fun q hq => ?_, fun q hq htaken => ?_⟩⟩
  · have hset := hconsistent.mem_dirtyPages.1 hq
    rw [← ledger_flush (w := w) ha] at hset ⊢
    obtain ⟨hstill, hsame⟩ := hw'.pending_stays hflushed hset
    have hconsistent' := hw'.consistent (fun _ _ ha => ha.1) hflushed
    exact ⟨hconsistent'.mem_dirtyPages.2 hstill, hsame⟩
  · have hconsistent' := hw'.consistent (fun _ _ ha => ha.1) hflushed
    have hsturdy' := hw'.sturdy (hsturdy.perform a)
    exact Pool.stored_of_abort hconsistent'.agrees hsturdy'.pool hq htaken

/-- A transaction has filled two pages. -/
def beforeFlush : World := (ofPool noPages).performAll fillTwoPages

/-- Both pages have been flushed, and another transaction has begun. -/
def afterFlush : World := (beforeFlush.perform .flushAll).performAll [.begin]

theorem flushed_changes_taken_back :
    beforeFlush.pool.flushAll.1 = .ok () ∧
    (beforeFlush.perform .flushAll).pool.catalog.stored? ⟨⟨1⟩, 1⟩ = some [1, 8] ∧
    beforeFlush.pool.Alike (beforeFlush.perform .flushAll).pool ∧
    ⟨⟨1⟩, 1⟩ ∈ afterFlush.pool.dirtyPages ⟨1⟩ ∧
    (afterFlush.perform (.complete ⟨1⟩ false)).pool.catalog.stored? ⟨⟨1⟩, 1⟩ = some [0, 0] := by
  have hw : Reaches Orderly (ofPool noPages) beforeFlush := Reaches.refl.performAll (by decide)
  obtain ⟨hlevel, hflush⟩ := flush_levels_unseen Catalog.sound_noPages make_noPages hw
  obtain ⟨halike, hlater⟩ := hflush .flushAll trivial
  have hok : beforeFlush.pool.flushAll.1 = .ok () := by decide +kernel
  have hcached : (beforeFlush.perform .flushAll).pool.pages.get? ⟨⟨1⟩, 1⟩ =
      some ⟨⟨⟨1⟩, 1⟩, [1, 8], [0, 0], some ⟨1⟩⟩ := by decide +kernel
  have hw' : Reaches (StaysActive ⟨1⟩) (beforeFlush.perform .flushAll) afterFlush :=
    Reaches.refl.performAll (by decide +kernel)
  obtain ⟨hstill, habort⟩ := hlater ⟨1⟩ afterFlush hw'
  have hdirty := (hstill ⟨⟨1⟩, 1⟩ (by decide +kernel)).1
  exact ⟨hok, hlevel hok _ _ hcached, halike, hdirty,
    (habort _ hdirty (by decide +kernel)).trans (by decide +kernel)⟩

end World

end PagePool
