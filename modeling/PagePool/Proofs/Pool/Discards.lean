import PagePool.Proofs.Pool.Owners
import PagePool.Proofs.Pool.Serial

namespace PagePool

namespace Ledger

/-- What the pages hold after a pass of a call: only its end is noted. -/
def after (l : Ledger) (layout? : TableId → Option Layout) (c : Call) :
    Pass Call (Except Error Answer) → Ledger
  | .blocked _ => l
  | .ended result => l.record layout? c result

end Ledger

namespace Pool

/-- The bytes of a cached page that the transaction has changed. -/
def changed? (p : Pool) (t : TransactionId) (q : PageId) : Option Bytes :=
  (p.pages.get? q).bind fun page => if page.dirtiedBy = some t then some page.data else none

/-- What the pages hold by a pool with changed pages in its cache. -/
def ledgerOver (p : Pool) (committed : PageId → Bytes) : Ledger := ⟨committed, p.changed?⟩

/-- What is needed to take back a change of the page: its transaction holds it, the page exists, and
it is cached with the change, or the store has not lost the committed bytes. -/
structure CanUndo (p : Pool) (t : TransactionId) (q : PageId) : Prop where
  held : p.locks.holds t q = true
  stored : (p.catalog.stored? q).isSome = true
  undo : (p.changed? t q).isSome = true ∨ q ∉ p.unsynced

variable {p p' k : Pool} {l : Ledger} {t u : TransactionId} {q r : PageId} {page : Page} {c : Call}
  {committed : PageId → Bytes} {d : Bytes}

theorem changed?_eq_some :
    p.changed? t q = some d ↔
      ∃ page, p.pages.get? q = some page ∧ page.dirtiedBy = some t ∧ page.data = d := by
  simp only [changed?, Option.bind_eq_some_iff, Option.ite_none_right_eq_some, Option.some.injEq]

namespace Agrees

/-- A ledger that a pool agrees with has as pending what is changed in the cache. -/
theorem eq_ledgerOver (h : p.Agrees l) : l = p.ledgerOver l.committed := by
  have hpending : l.pending = p.changed? := by
    funext t q
    apply Option.ext
    intro d
    rw [h.pending_iff, changed?_eq_some]
  rw [ledgerOver, ← hpending]

theorem withLedgerOver (h : p.Agrees l) (hc : l.committed = committed) :
    p.Agrees (p.ledgerOver committed) := by
  rw [← hc, ← h.eq_ledgerOver]
  exact h

theorem changed?_eq (h : p.Agrees l) : p.changed? t q = l.pending t q := by
  rw [h.eq_ledgerOver]
  rfl

/-- A page may be dropped whose stored bytes are the ones to fall back to. -/
theorem discard (h : p.Agrees (p.ledgerOver committed)) (hq : q ∉ p.unsynced) :
    (p.discard q).Agrees ((p.discard q).ledgerOver committed) := by
  have hresident := h.resident.discard q
  unfold Pool.discard at hresident ⊢
  split at hresident
  · rename_i hcached
    rw [if_pos hcached]
    have hold {r : PageId} {page : Page} (hr : (p.pages.erase q).get? r = some page) :
        p.pages.get? r = some page := by
      rw [OrdMap.get?_erase] at hr
      split at hr
      · contradiction
      · exact hr
    constructor
    · exact h.locks
    · exact h.catalog
    · exact hresident
    · exact fun hr => h.before_eq (hold hr)
    · exact fun hr => h.clean_eq (hold hr)
    · exact changed?_eq_some
    · exact fun hr => h.owner (hold hr)
    · intro r hr
      obtain ⟨page, hr⟩ := isCached_iff.1 hr
      exact h.stored_of_cached (isCached_iff.2 ⟨page, hold hr⟩)
    · intro r d hr
      refine h.stored_eq fun hm => hr (OrdSet.mem_erase.2 ⟨?_, hm⟩)
      rintro rfl
      exact hq hm
    · exact h.zeros_of_absent
  · rename_i hcached
    rw [if_neg hcached]
    exact h

end Agrees

theorem changed?_discard (p : Pool) (t : TransactionId) (q r : PageId) :
    (p.discard q).changed? t r = if r = q then none else p.changed? t r := by
  unfold discard
  split
  · simp only [changed?, OrdMap.get?_erase]
    split <;> rfl
  · rename_i hcached
    split
    · rename_i hr
      have hnone : p.pages.get? r = none := by
        rw [hr, ← Option.not_isSome_iff_eq_none]
        exact hcached
      rw [changed?, hnone]
      rfl
    · rfl

/-! One lock request of a call. What a scan has found so far does not matter to the pool. -/

theorem advances_scan (h : p.Agrees l) {rest : List PageId} {found : List StoredTuple}
    (htask : c.task = .scan rest found) : Advances c.request.tid p l (p.runCall 1 c).2 l := by
  have hlocked := Advances.acquire h c.request
  rcases runCall_one_cases p c with
    ⟨locks, rfl, hrun | ⟨e, hrun⟩⟩ | ⟨locks, ha, hrun⟩
  · rwa [hrun]
  · rwa [hrun]
  rw [ha] at hlocked
  have hresumed : Advances c.request.tid { p with locks } l
      (({ p with locks } : Pool).resume c).2 l := by
    have hread {result : Except Error Page} {k : Pool}
        (ho : ({ p with locks } : Pool).obtain c.request c.task.source = (result, k)) :
        Advances c.request.tid { p with locks } l k l := by
      rw [htask] at ho
      exact advances_read hlocked.agrees ho
    generalize ho : ({ p with locks } : Pool).resume c = o
    have hcases := resumes { p with locks } c
    rw [ho] at hcases
    cases hcases with
    | stops hobtain _ => exact hread hobtain
    | scans hobtain => exact hread hobtain
    | installs _ _ he _ =>
      rw [htask] at he
      contradiction
    | seeks _ hsearch _ _ =>
      rw [htask] at hsearch
      contradiction
    | edits _ hedit =>
      rw [htask] at hedit
      contradiction
  rcases hrun with ⟨r, p', hresume, hrun⟩ | ⟨c', p', hresume, hrun⟩
  · rw [hresume] at hresumed
    rw [hrun]
    exact hlocked.trans hresumed
  · rw [hresume] at hresumed
    rw [hrun]
    exact hlocked.trans hresumed

/-- But for a scan, which has to know what it has found, whoever is careful can rely on the ledger. -/
theorem Careful.waits (hc : p.Careful c) (h : p.Agrees l) :
    (∃ rest found, c.task = .scan rest found) ∨ Waits p l [] c := by
  obtain ⟨r, task⟩ := c
  cases task with
  | fetch => exact .inr trivial
  | insert tuple heldBefore install =>
    obtain ⟨hmode, hinstall, hnot⟩ := hc
    refine .inr ⟨hmode, hinstall, fun hheld => h.pending_eq_none_iff.2 fun page hq ht => ?_⟩
    exact hnot hheld ⟨page, hq, ht⟩
  | delete slot install => exact .inr hc
  | scan rest found => exact .inl ⟨rest, found, rfl⟩
  | edit source edited writes => exact hc.elim

/-- Whoever is careful advances the pool by the ledger, also when cached pages have been dropped. -/
theorem advances_runCall (h : p.Agrees l) (hc : p.Careful c) :
    Advances c.request.tid p l (p.runCall 1 c).2
      (l.after p.catalog.layout? c (p.runCall 1 c).1) := by
  rcases hc.waits h with ⟨rest, found, htask⟩ | hw
  · have hsame : l.after p.catalog.layout? c (p.runCall 1 c).1 = l := by
      cases (p.runCall 1 c).1 with
      | blocked c' => rfl
      | ended result => exact Ledger.record_of_scan htask
    rw [hsame]
    exact advances_scan h htask
  · rcases turn_cases h hw with ⟨c', p', hrun, -, -, -, ha⟩ | ⟨result, p', hrun, -, ha⟩
    · rw [hrun]
      exact ha
    · rw [hrun]
      exact ha

theorem pending_of_careful (h : p.Agrees l) (hc : p.Careful c)
    (hrun : p.runCall 1 c = (.ended (.ok .done), p')) :
    ((l.record p.catalog.layout? c (.ok .done)).pending c.request.tid c.request.page).isSome =
      true := by
  rcases hc.waits h with ⟨rest, found, htask⟩ | hw
  · obtain ⟨k, edited, locks, page, heap, -, -, -, he⟩ := installs_of_done (by simp [htask]) hrun
    rw [htask] at he
    contradiction
  · exact pending_of_done h hw hrun

theorem advances_start (h : p.Agrees l) (c : Command) :
    Advances c.tid p l (c.start p).2 l := by
  have hgoes : Goes c.tid p l ((c.scans p.catalog).getD []) _ _ (c.start p) :=
    goes_start h c fun qs hqs => by rw [hqs]; rfl
  rcases hs : c.start p with ⟨progress, p'⟩
  rw [hs] at hgoes
  cases hgoes with
  | ended hends ha =>
    obtain ⟨rfl, -⟩ := hends
    exact ha
  | needs _ _ _ ha => exact ha

/-! Which steps leave a page unsynced. -/

theorem forEachPage_frame {handle : Pool → Page → Except Error Unit × Pool}
    (hhandle : ∀ p page, q ≠ page.id → (q ∈ (handle p page).2.unsynced ↔ q ∈ p.unsynced))
    {pages : List Page} (hq : q ∉ pages.map Page.id) :
    q ∈ (forEachPage handle p pages).2.unsynced ↔ q ∈ p.unsynced := by
  induction pages generalizing p with
  | nil => exact Iff.rfl
  | cons page pages ih =>
    rw [List.map_cons, List.mem_cons, not_or] at hq
    exact (ih hq.2).trans (hhandle p page hq.1)

theorem unsynced_writeCommitted_of_ne (p : Pool) (page : Page) (hq : q ≠ page.id) :
    q ∈ (p.writeCommitted page).2.unsynced ↔ q ∈ p.unsynced := by
  unfold writeCommitted
  split
  · exact Resident.mem_erase_of_ne _ hq
  · exact Resident.mem_insert_of_ne _ hq

theorem unsynced_complete_of_not_dirty {commit : Bool} (hq : q ∉ p.dirtyPages t)
    (hsynced : q ∉ p.unsynced) : q ∉ (p.complete t commit).2.unsynced := by
  cases commit with
  | true =>
    rcases commit_cases p t with ⟨e, journal, -, hc⟩ | ⟨journal, stats, -, -, hc⟩
    · simp only [complete, if_true, hc]
      exact hsynced
    · simp only [complete, if_true, hc]
      have hframe := forEachPage_frame (p := { p with journal }) unsynced_writeCommitted_of_ne hq
      exact mt hframe.1 hsynced
  | false => exact mt unsynced_abort hsynced

/-- A page that nobody has changed is not flushed unless the store has missed it. -/
theorem Agrees.unsynced_flush (h : p.Agrees l) (hnone : ∀ u, l.pending u q = none)
    (hsynced : q ∉ p.unsynced) (r : PageId) : q ∉ (p.flush r).2.unsynced := by
  rcases flush_cases p r (fun hr hown => (h.owner hr hown).2) with
    ⟨journal, hf⟩ | ⟨page, catalog, journal, hr, -, ⟨owner, hown, hf⟩ | ⟨-, hf⟩⟩
  · rwa [hf]
  · have hne : q ≠ page.id := by
      rintro rfl
      rw [← h.resident.id_eq hr] at hr
      exact h.pending_eq_none_iff.1 (hnone owner) page hr hown
    rw [hf]
    intro hm
    exact hsynced ((Resident.mem_erase_of_ne _ hne).1 ((Resident.mem_insert_of_ne _ hne).1 hm))
  · rw [hf]
    exact fun hm => hsynced (OrdSet.mem_erase.1 hm).2

theorem Agrees.unsynced_flushEach (h : p.Agrees l) (hnone : ∀ u, l.pending u q = none)
    (hsynced : q ∉ p.unsynced) (rs : List PageId) : q ∉ (p.flushEach rs).2.unsynced := by
  refine (flushEach_preserves (P := fun k => k.Agrees l ∧ q ∉ k.unsynced) ?_ ⟨h, hsynced⟩ rs).2
  rintro k r ⟨hagrees, hsynced⟩
  exact ⟨(hagrees.flush r).1, hagrees.unsynced_flush hnone hsynced r⟩

/-- A page that has been rolled back without a failure is not unsynced. -/
theorem synced_rollBack (h : (p.rollBack page).1 = .ok ()) :
    page.id ∉ (p.rollBack page).2.unsynced := by
  unfold rollBack at h ⊢
  split at h
  · rename_i hm
    rw [if_pos hm]
    cases hw : p.catalog.writePage page.beforeImage with
    | error e =>
      rw [hw] at h
      contradiction
    | ok catalog => exact Resident.not_mem_erase _ _
  · rename_i hm
    rw [if_neg hm]
    exact hm

theorem synced_rollBack_all {pages : List Page} (h : (forEachPage rollBack p pages).1 = .ok ())
    (hpage : page ∈ pages) : page.id ∉ (forEachPage rollBack p pages).2.unsynced := by
  induction pages generalizing p with
  | nil => contradiction
  | cons first pages ih =>
    rcases hfirst : p.rollBack first with ⟨result, p'⟩
    rcases hlater : forEachPage rollBack p' pages with ⟨later, p''⟩
    simp only [forEachPage, hfirst, hlater] at h ⊢
    cases result with
    | error e => contradiction
    | ok u =>
      have hrest : (forEachPage rollBack p' pages).1 = .ok () := by
        rw [hlater]
        exact h
      rcases List.mem_cons.1 hpage with rfl | hpage
      · have hsynced : page.id ∉ (p.rollBack page).2.unsynced := synced_rollBack (by rw [hfirst])
        have hkept : page.id ∈ (forEachPage rollBack p' pages).2.unsynced → page.id ∈ p'.unsynced :=
          unsynced_rollBack_all
        rw [hfirst] at hsynced
        rw [hlater] at hkept
        exact mt hkept hsynced
      · have hsynced := ih hrest hpage
        rwa [hlater] at hsynced

theorem synced_abort (ht : p.isActive t = true) (hok : (p.abort t).1 = .ok ())
    (hq : q ∈ p.dirtyPages t) : q ∉ (p.abort t).2.unsynced := by
  have hrestored : (forEachPage rollBack p (p.dirtiedBy t)).1 = .ok () := by
    simp only [abort, ht, if_true] at hok
    rcases hall : forEachPage rollBack p (p.dirtiedBy t) with ⟨restored, p₁⟩
    rw [hall] at hok
    cases restored with
    | error e => contradiction
    | ok u => rfl
  obtain ⟨page, hpage, rfl⟩ := List.mem_map.1 hq
  have hsynced := synced_rollBack_all hrestored hpage
  rcases abort_cases p t with ⟨-, journal, stats, habort⟩ | ⟨hnot, -⟩
  · rw [habort]
    exact hsynced
  · exact absurd ht hnot

/-! What steps leave of the means to take a change back. -/

theorem CanUndo.of_pending (h : p.Agrees l) (hset : (l.pending t q).isSome = true) :
    p.CanUndo t q := by
  obtain ⟨d, hd⟩ := Option.isSome_iff_exists.1 hset
  obtain ⟨page, hq, -⟩ := h.pending_iff.1 hd
  refine ⟨h.holds_of_pending hset, h.stored_of_cached (isCached_iff.2 ⟨page, hq⟩), .inl ?_⟩
  rwa [h.changed?_eq]

theorem CanUndo.of_ledger (hc : p.CanUndo t q) (h : p.Agrees l) (h' : p'.Agrees l)
    (hheld : p'.locks.holds t q = true)
    (hstored : (p.catalog.stored? q).isSome = true → (p'.catalog.stored? q).isSome = true)
    (hunsynced : (∀ u, l.pending u q = none) → q ∉ p.unsynced → q ∉ p'.unsynced) :
    p'.CanUndo t q := by
  refine ⟨hheld, hstored hc.stored, ?_⟩
  by_cases hchanged : (p.changed? t q).isSome = true
  · left
    rwa [h'.changed?_eq, ← h.changed?_eq]
  · right
    refine hunsynced (fun u => ?_) (hc.undo.resolve_left hchanged)
    -- nobody but the holder can have changed the page
    by_cases hu : t = u
    · rw [← hu, ← h.changed?_eq]
      exact Option.not_isSome_iff_eq_none.1 hchanged
    · exact h.pending_eq_none hc.held hu

theorem CanUndo.of_advances {l' : Ledger} (hc : p.CanUndo t q) (h : p.Agrees l)
    (ha : Advances u p l p' l') (hheld : p'.locks.holds t q = true) : p'.CanUndo t q := by
  refine ⟨hheld, ?_, ?_⟩
  · obtain ⟨d, hd⟩ := Option.isSome_iff_exists.1 hc.stored
    rw [ha.stored_stays hd]
    rfl
  · rw [ha.unsynced_eq, ha.agrees.changed?_eq]
    refine hc.undo.imp_left fun hchanged => ha.pending_stays ?_
    rwa [← h.changed?_eq]

theorem isSome_stored?_of_tables {c c' : Catalog} (h : c'.tables = c.tables) (q : PageId) :
    (c'.stored? q).isSome = (c.stored? q).isSome := by
  unfold Catalog.stored?
  rw [h]
  split
  · rfl
  · split <;> rfl

theorem CanUndo.flush (hc : p.CanUndo t q) (h : p.Agrees l) (r : PageId) :
    (p.flush r).2.CanUndo t q := by
  obtain ⟨hagrees, hflushes⟩ := h.flush r
  refine hc.of_ledger h hagrees ?_ ?_ fun hnone hsynced => h.unsynced_flush hnone hsynced r
  · rw [hflushes.locks_eq]
    exact hc.held
  · rw [isSome_stored?_of_tables hflushes.tables_eq]
    exact id

theorem CanUndo.flushEach (hc : p.CanUndo t q) (h : p.Agrees l) (rs : List PageId) :
    (p.flushEach rs).2.CanUndo t q := by
  obtain ⟨hagrees, hflushes⟩ := h.flushEach rs
  refine hc.of_ledger h hagrees ?_ ?_ fun hnone hsynced => h.unsynced_flushEach hnone hsynced rs
  · rw [hflushes.locks_eq]
    exact hc.held
  · rw [isSome_stored?_of_tables hflushes.tables_eq]
    exact id

theorem CanUndo.discard (hc : p.CanUndo t q) (hr : r ∉ p.unsynced) : (p.discard r).CanUndo t q := by
  have hcatalog : (p.discard r).catalog = p.catalog := by
    unfold Pool.discard
    split <;> rfl
  have hunsynced (hm : q ∈ (p.discard r).unsynced) : q ∈ p.unsynced := by
    unfold Pool.discard at hm
    split at hm
    · exact (OrdSet.mem_erase.1 hm).2
    · exact hm
  refine ⟨?_, ?_, ?_⟩
  · rw [locks_discard]
    exact hc.held
  · rw [hcatalog]
    exact hc.stored
  · rw [changed?_discard]
    split
    · rename_i hq
      rw [hq] at hunsynced ⊢
      exact .inr (mt hunsynced hr)
    · exact hc.undo.imp_right (mt hunsynced)

theorem pending_completed_of_none {commit : Bool} (h : l.pending u q = none) :
    (p.completed l t commit).pending u q = none := by
  by_cases hu : u = t
  · subst hu
    unfold completed
    split
    · split
      · exact if_pos rfl
      · exact h
    · exact if_pos rfl
  · exact (pending_completed commit hu).trans h

/-- Another transaction may complete. -/
theorem CanUndo.complete (hc : p.CanUndo t q) (h : p.Agrees l) (hne : t ≠ u) (commit : Bool) :
    (p.complete u commit).2.CanUndo t q := by
  have hcompletes := completes p u commit
  have hdone := h.complete u commit
  refine ⟨?_, ?_, ?_⟩
  · rw [hcompletes.holds_eq hne]
    exact hc.held
  · rw [isSome_stored?_of_tables hcompletes.tables_eq]
    exact hc.stored
  · rw [hdone.changed?_eq, pending_completed commit hne, ← h.changed?_eq]
    refine hc.undo.imp_right (unsynced_complete_of_not_dirty ?_)
    -- the page is held, so it is not among those that the other one has changed
    intro hdirty
    obtain ⟨page, hpage, rfl⟩ := List.mem_map.1 hdirty
    obtain ⟨hq, hu⟩ := (mem_dirtiedBy h.resident).1 hpage
    exact hne (h.locks.eq_of_isWriter (h.owner hq hu).1 hc.held)

end Pool

namespace World

/-- Who changes which page in a turn. -/
def changes (w : World) (i : Nat) : Option (TransactionId × PageId) :=
  match w.session.pending[i]?, (w.turn i).1 with
  | some call, some (_, .ok .done) => some (call.call.request.tid, call.call.request.page)
  | _, _ => none

/-- The last committed bytes of every page, and the pages that each transaction has changed since it
began or completed last. -/
structure Changes where
  committed : PageId → Bytes
  modified : TransactionId → List PageId

namespace Changes

/-- Before the first step the committed bytes are those in the store. -/
def begun (p : Pool) : Changes := ⟨(Ledger.ofCatalog p.catalog).committed, fun _ => []⟩

def add (k : Changes) (t : TransactionId) (q : PageId) : Changes :=
  { k with modified := fun u => if u = t then q :: k.modified u else k.modified u }

def clear (k : Changes) (t : TransactionId) : Changes :=
  { k with modified := fun u => if u = t then [] else k.modified u }

/-- A commit whose log was forced makes what the transaction has changed the committed bytes; an
abort makes nothing of it. -/
def note (w : World) (k : Changes) : Action → Changes
  | .turn i =>
    match w.changes i with
    | some (t, q) => k.add t q
    | none => k
  | .complete t true =>
    match (w.pool.logCommit t).1 with
    | .ok _ => { k.clear t with committed := fun q => (w.pool.changed? t q).getD (k.committed q) }
    | .error _ => k
  | .complete t false => k.clear t
  | _ => k

/-- What callers keep to so that changes can be taken back: a transaction makes one call at a time,
nobody gives up single locks, and no page is dropped while the store has other bytes of it than the
ones to fall back to. -/
def Restorable (w : World) (a : Action) : Prop :=
  w.SingleCalls a ∧ ∀ q, a = .discard q → q ∉ w.pool.unsynced

instance (w : World) : (a : Action) → Decidable (Restorable w a)
  | .discard q => decidable_of_iff (q ∉ w.pool.unsynced)
      ⟨fun h => ⟨trivial, fun _ he => Action.discard.inj he ▸ h⟩, fun h => h.2 q rfl⟩
  | .call _ c => decidable_of_iff (w.Idle c.tid) (and_iff_left nofun).symm
  | .complete t _ => decidable_of_iff (w.Idle t) (and_iff_left nofun).symm
  | .releaseLock _ _ => isFalse And.left
  | .begin => isTrue ⟨trivial, nofun⟩
  | .turn _ => isTrue ⟨trivial, nofun⟩
  | .flush _ => isTrue ⟨trivial, nofun⟩
  | .flushAll => isTrue ⟨trivial, nofun⟩
  | .flushOf _ => isTrue ⟨trivial, nofun⟩
  | .failStore _ _ => isTrue ⟨trivial, nofun⟩
  | .failLog _ _ => isTrue ⟨trivial, nofun⟩

/-- Steps in which nobody changes the page. -/
def Leaves (q : PageId) (w : World) (a : Action) : Prop :=
  Restorable w a ∧ ∀ i t, a = .turn i → w.changes i ≠ some (t, q)

/-- The pool agrees with the committed bytes, and every change can be taken back. A search that is to
give up the lock of a page has not changed it. -/
structure Sound (w : World) (k : Changes) : Prop where
  agrees : w.pool.Agrees (w.pool.ledgerOver k.committed)
  undo : ∀ t, ∀ q ∈ k.modified t, w.pool.CanUndo t q
  unchanged : ∀ call ∈ w.session.pending, call.call.task.givesBack = true →
    call.call.request.page ∉ k.modified call.call.request.tid

variable {w : World} {k : Changes} {i : Nat} {call : Pending Call} {t u : TransactionId}
  {q : PageId} {a : Action}

theorem mem_modified_add {r : PageId} :
    r ∈ (k.add t q).modified u ↔ u = t ∧ r = q ∨ r ∈ k.modified u := by
  simp only [add]
  by_cases hu : u = t <;> simp [hu]

theorem mem_modified_clear : q ∈ (k.clear t).modified u ↔ u ≠ t ∧ q ∈ k.modified u := by
  simp only [clear]
  by_cases hu : u = t <;> simp [hu]

namespace Sound

theorem turn (h : Sound w k) (ho : w.Owned) (i : Nat) :
    Sound (w.turn i).2 (note w k (.turn i)) := by
  cases hi : w.session.pending[i]? with
  | none =>
    simp only [note, changes, hi, turn_of_absent hi]
    exact h
  | some call =>
    have hcall := List.mem_of_getElem? hi
    have hc := ho.careful call hcall
    have ha := Pool.advances_runCall h.agrees hc
    rcases hrun : w.pool.runCall 1 call.call with ⟨pass, p'⟩
    rw [hrun] at ha
    have hundo : ∀ t, ∀ q ∈ k.modified t, p'.CanUndo t q := by
      intro t q hq
      have hcan := h.undo t q hq
      refine hcan.of_advances h.agrees ha ?_
      by_cases ht : t = call.call.request.tid
      · subst ht
        have hkept := Pool.holds_runCall (c := call.call) hcan.held ?_
        · rwa [hrun] at hkept
        · rintro hgive rfl
          exact h.unchanged call hcall hgive hq
      · rw [ha.holds_eq ht]
        exact hcan.held
    cases pass with
    | blocked c =>
      obtain ⟨-, hknows⟩ := hc.knows hrun
      simp only [note, changes, hi, turn_of_blocked hi hrun]
      refine ⟨ha.agrees.withLedgerOver rfl, hundo, ?_⟩
      refine forall_mem_set (P := fun c => c.task.givesBack = true →
        c.request.page ∉ k.modified c.request.tid) ho.one_call hi ?_
        fun other hother _ => h.unchanged other hother
      intro hgive hq
      rcases hknows with rfl | hknows
      · exact h.unchanged call hcall hgive hq
      · have hheld := (hundo _ _ hq).held
        rw [hknows.not_held hgive] at hheld
        contradiction
    | ended result =>
      have hothers : ∀ other ∈ w.session.pending.eraseIdx i, other.call.task.givesBack = true →
          other.call.request.page ∉ k.modified other.call.request.tid :=
        fun other hother => h.unchanged other (List.mem_of_mem_eraseIdx hother)
      have hagrees : p'.Agrees (p'.ledgerOver k.committed) := ha.agrees.withLedgerOver ha.committed_eq
      by_cases hdone : result = .ok .done
      · subst hdone
        simp only [note, changes, hi, turn_of_ended hi hrun]
        refine ⟨hagrees, fun t q hq => ?_, ?_⟩
        · rcases mem_modified_add.1 hq with ⟨rfl, rfl⟩ | hq
          · exact .of_pending ha.agrees (Pool.pending_of_careful h.agrees hc hrun)
          · exact hundo t q hq
        · refine forall_mem_eraseIdx (P := fun c => c.task.givesBack = true →
            c.request.page ∉ (k.add _ _).modified c.request.tid) ho.one_call hi ?_
          intro other hother hne hgive hq
          rcases mem_modified_add.1 hq with ⟨ht, -⟩ | hq
          · exact hne ht
          · exact h.unchanged other hother hgive hq
      · have hnone : w.changes i = none := by
          simp only [changes, hi, turn_of_ended hi hrun]
          split
          · rename_i heq
            obtain ⟨-, rfl⟩ := Prod.mk.inj (Option.some.inj heq)
            exact absurd rfl hdone
          · rfl
        simp only [note, hnone]
        rw [turn_of_ended hi hrun]
        exact ⟨hagrees, hundo, hothers⟩

/-- The pool may change under waiting calls, as long as the changes can still be taken back. -/
theorem withPool (h : Sound w k) {p' : Pool} (ha : p'.Agrees (p'.ledgerOver k.committed))
    (hundo : ∀ {t q}, w.pool.CanUndo t q → p'.CanUndo t q) : Sound (w.withPool p') k :=
  ⟨ha, fun t q hq => hundo (h.undo t q hq), h.unchanged⟩

theorem issue (h : Sound w k) (step : Nat) (c : Command) : Sound (w.issue step c).2 k := by
  have ha := Pool.advances_start h.agrees c
  obtain ⟨catalog, hs⟩ := Pool.start_cases w.pool c
  have hundo {p' : Pool} (ha : Pool.Advances c.tid w.pool (w.pool.ledgerOver k.committed) p'
      (w.pool.ledgerOver k.committed)) (hlocks : p'.locks = w.pool.locks) :
      ∀ t, ∀ q ∈ k.modified t, p'.CanUndo t q := by
    intro t q hq
    refine (h.undo t q hq).of_advances h.agrees ha ?_
    rw [hlocks]
    exact (h.undo t q hq).held
  rcases hs with ⟨result, hs⟩ | ⟨call, hs, ht, hknows⟩
  · rw [hs] at ha
    simp only [World.issue, hs]
    exact ⟨ha.agrees.withLedgerOver rfl, hundo ha rfl, h.unchanged⟩
  · rw [hs] at ha
    simp only [World.issue, hs]
    refine ⟨ha.agrees.withLedgerOver rfl, hundo ha rfl, fun other hother hgive hq => ?_⟩
    rcases List.mem_append.1 hother with hother | hother
    · exact h.unchanged other hother hgive hq
    · obtain rfl := List.mem_singleton.1 hother
      have hheld := (h.undo _ _ hq).held
      rw [hknows.not_held hgive] at hheld
      contradiction

theorem complete (h : Sound w k) (t : TransactionId) (commit : Bool) :
    Sound (w.perform (.complete t commit)) (note w k (.complete t commit)) := by
  have hdone := h.agrees.complete t commit
  have hcleared : ∀ u, ∀ q ∈ (k.clear t).modified u, (w.pool.complete t commit).2.CanUndo u q := by
    intro u q hq
    obtain ⟨hu, hq⟩ := mem_modified_clear.1 hq
    exact (h.undo u q hq).complete h.agrees hu commit
  have hwaiting : ∀ call ∈ w.session.pending, call.call.task.givesBack = true →
      call.call.request.page ∉ (k.clear t).modified call.call.request.tid :=
    fun call hcall hgive hq => h.unchanged call hcall hgive (mem_modified_clear.1 hq).2
  cases commit with
  | false => exact ⟨hdone.withLedgerOver rfl, hcleared, hwaiting⟩
  | true =>
    simp only [note]
    cases hlog : (w.pool.logCommit t).1 with
    | ok u =>
      refine ⟨hdone.withLedgerOver ?_, hcleared, hwaiting⟩
      simp only [Pool.completed, hlog, if_true]
      rfl
    | error e =>
      -- the transaction goes on with what it has changed
      rcases Pool.commit_cases w.pool t with ⟨e', journal, -, hc⟩ | ⟨journal, stats, hok, -⟩
      · simp only [perform, Pool.complete, if_true, hc]
        refine ⟨h.agrees.withJournal journal, fun u q hq => ?_, h.unchanged⟩
        obtain ⟨hheld, hstored, hundo⟩ := h.undo u q hq
        exact ⟨hheld, hstored, hundo⟩
      · rw [hlog] at hok
        contradiction

theorem perform (h : Sound w k) (ho : w.Owned) (ha : Restorable w a) :
    Sound (w.perform a) (note w k a) := by
  obtain ⟨hsingle, hdiscard⟩ := ha
  cases a with
  | begin =>
    refine h.withPool (h.agrees.congr rfl rfl rfl rfl rfl ?_) fun hc => ⟨hc.held, hc.stored, hc.undo⟩
    exact fun t ht => OrdSet.mem_insert.2 (.inr ht)
  | call step c => exact h.issue step c
  | turn i => exact h.turn ho i
  | complete t commit => exact h.complete t commit
  | flush page =>
    exact h.withPool ((h.agrees.flush page).1.withLedgerOver rfl) fun hc => hc.flush h.agrees page
  | flushAll =>
    exact h.withPool ((h.agrees.flushEach _).1.withLedgerOver rfl) fun hc => hc.flushEach h.agrees _
  | flushOf t =>
    exact h.withPool ((h.agrees.flushEach _).1.withLedgerOver rfl) fun hc => hc.flushEach h.agrees _
  | discard page =>
    have hsynced := hdiscard page rfl
    exact h.withPool (h.agrees.discard hsynced) fun hc => hc.discard hsynced
  | releaseLock t page => exact hsingle.elim
  | failStore table faults =>
    simp only [World.perform]
    cases hf : w.pool.catalog.setFaults table faults with
    | error e => exact h
    | ok catalog =>
      refine h.withPool ?_ fun hc => ⟨hc.held, ?_, hc.undo⟩
      · refine h.agrees.withCatalog (Catalog.sound_setFaults h.agrees.catalog hf) ?_ ?_
        · obtain ⟨heap, -, rfl⟩ := Catalog.setFaults_eq_ok hf
          rfl
        · exact fun q => .inl (Catalog.stored?_setFaults hf q)
      · rw [Catalog.stored?_setFaults hf]
        exact hc.stored
  | failLog refuses forceFails =>
    exact h.withPool (h.agrees.withJournal _) fun hc => ⟨hc.held, hc.stored, hc.undo⟩

theorem changed?_turn (h : Sound w k) (ho : w.Owned) (hq : ∀ t, w.changes i ≠ some (t, q)) :
    (w.turn i).2.pool.changed? u q = w.pool.changed? u q := by
  cases hi : w.session.pending[i]? with
  | none => rw [turn_of_absent hi]
  | some call =>
    have ha := Pool.advances_runCall h.agrees (ho.careful call (List.mem_of_getElem? hi))
    rcases hrun : w.pool.runCall 1 call.call with ⟨pass, p'⟩
    rw [hrun] at ha
    have hsame : p'.changed? u q = _ := ha.agrees.changed?_eq
    cases pass with
    | blocked c =>
      rw [turn_of_blocked hi hrun]
      exact hsame
    | ended result =>
      simp only [changes, hi, turn_of_ended hi hrun] at hq ⊢
      refine hsame.trans ?_
      by_cases hdone : result = .ok .done
      · refine Ledger.pending_record_of_ne ?_
        rintro rfl
        subst hdone
        exact hq _ rfl
      · exact congrArg (fun l => l.pending u q) (Ledger.record_eq_self hdone)

/-- A page that nobody has changed stays so in such a step, and its committed bytes stay. -/
theorem rests (h : Sound w k) (ho : w.Owned) (ha : Leaves q w a)
    (hnone : ∀ u, w.pool.changed? u q = none) :
    (note w k a).committed q = k.committed q ∧ ∀ u, (w.perform a).pool.changed? u q = none := by
  have hledger {p' : Pool} (hp : p'.Agrees (w.pool.ledgerOver k.committed)) (u : TransactionId) :
      p'.changed? u q = none := hp.changed?_eq.trans (hnone u)
  cases a with
  | call step c =>
    refine ⟨rfl, hledger ?_⟩
    have hadvances := Pool.advances_start h.agrees c
    simp only [World.perform, World.issue]
    rcases hs : c.start w.pool with ⟨progress, p'⟩
    rw [hs] at hadvances
    cases progress with
    | ended result => exact hadvances.agrees
    | needs call => exact hadvances.agrees
  | turn i =>
    have hsame (u : TransactionId) := h.changed?_turn ho (u := u) fun t => ha.2 i t rfl
    refine ⟨?_, fun u => (hsame u).trans (hnone u)⟩
    simp only [note]
    split <;> rfl
  | complete t commit =>
    have hdone := h.agrees.complete t commit
    have hcommitted : (note w k (.complete t commit)).committed q = k.committed q := by
      cases commit with
      | false => rfl
      | true =>
        simp only [note]
        cases (w.pool.logCommit t).1 with
        | ok u =>
          simp only [hnone]
          rfl
        | error e => rfl
    refine ⟨hcommitted, fun u => hdone.changed?_eq.trans ?_⟩
    exact Pool.pending_completed_of_none (hnone u)
  | flush page => exact ⟨rfl, hledger (h.agrees.flush page).1⟩
  | flushAll => exact ⟨rfl, hledger (h.agrees.flushEach _).1⟩
  | flushOf t => exact ⟨rfl, hledger (h.agrees.flushEach _).1⟩
  | discard page =>
    refine ⟨rfl, fun u => (Pool.changed?_discard _ _ _ _).trans ?_⟩
    split
    · rfl
    · exact hnone u
  | failStore table faults =>
    refine ⟨rfl, fun u => ?_⟩
    simp only [World.perform]
    split
    · exact hnone u
    · exact hnone u
  | _ => exact ⟨rfl, hnone⟩

/-- A fetch hands out the committed bytes of a page that nobody has changed. -/
theorem fetches (h : Sound w k) {page : Page} (hf : w.Fetches i t q page)
    (hnone : w.pool.changed? t q = none) : page.data = k.committed q := by
  obtain ⟨call, step, hi, htask, rfl, rfl, hturn⟩ := hf
  obtain ⟨hrun, -⟩ := runCall_of_turn hi hturn
  have hcall : call.call = ⟨call.call.request, .fetch⟩ := by rw [← htask]
  rw [hcall] at hrun
  obtain ⟨hhanded, -⟩ := Pool.fetch_eq_ok hrun
  have hwaits : Pool.Waits w.pool (w.pool.ledgerOver k.committed) [] ⟨call.call.request, .fetch⟩ :=
    trivial
  rw [Pool.handed_eq h.agrees hwaits hhanded]
  exact Ledger.view_eq_of_not_pending hnone

end Sound

variable {p : Pool} {capacity : Nat} {catalog : Catalog} {journal : Journal}

theorem sound_ofPool (hs : catalog.Sound) (hp : Pool.make capacity catalog journal = .ok p) :
    Sound (ofPool p) (begun p) := by
  have hagrees := Pool.agrees_make hs hp
  have hcatalog : p.catalog = catalog := by
    obtain ⟨-, rfl⟩ := Pool.make_eq_ok hp
    rfl
  refine ⟨hagrees.withLedgerOver ?_, nofun, nofun⟩
  rw [begun, hcatalog]

theorem sound {start : World} {first : Changes} (hw : Tallies note Restorable start first w k)
    (hstart : Sound start first) (ho : start.Owned) : Sound w k ∧ w.Owned := by
  induction hw with
  | refl => exact ⟨hstart, ho⟩
  | step _ ha ih => exact ⟨ih.1.perform ih.2 ha, ih.2.perform ha.1⟩

theorem stays_committed {start : World} {first : Changes}
    (hw : Reaches (Leaves q) start w) (hstart : Sound start first) (ho : start.Owned)
    (hnone : ∀ u, start.pool.changed? u q = none) :
    ∃ k, Sound w k ∧ w.Owned ∧ k.committed q = first.committed q ∧
      ∀ u, w.pool.changed? u q = none := by
  induction hw with
  | refl => exact ⟨first, hstart, ho, rfl, hnone⟩
  | step _ ha ih =>
    obtain ⟨k, hsound, ho, hcommitted, hnone⟩ := ih
    obtain ⟨hsame, hstill⟩ := hsound.rests ho ha hnone
    exact ⟨_, hsound.perform ho ha.1, ho.perform ha.1.1, hsame.trans hcommitted, hstill⟩

/-- No page is dropped while the store has bytes of it that may have to be taken back. Then the
abort of an active transaction, if it succeeds, leaves in the store the last committed bytes of every
page that the transaction has changed, also of those that were flushed or dropped in between. Until
somebody changes such a page again, every fetch hands these bytes out. -/
theorem abort_restores (hs : catalog.Sound) (hp : Pool.make capacity catalog journal = .ok p)
    (hw : Tallies note Restorable (ofPool p) (begun p) w k) (hidle : w.Idle t)
    (ht : w.pool.isActive t = true) (hok : (w.pool.complete t false).1 = .ok ()) :
    ∀ q ∈ k.modified t,
      (w.perform (.complete t false)).pool.catalog.stored? q = some (k.committed q) ∧
      ∀ w', Reaches (Leaves q) (w.perform (.complete t false)) w' →
        ∀ i u page, w'.Fetches i u q page → page.data = k.committed q := by
  intro q hq
  obtain ⟨hsound, ho⟩ := sound hw (sound_ofPool hs hp) (owned_ofPool hp)
  have hcan := hsound.undo t q hq
  have hdone := hsound.agrees.complete t false
  constructor
  · have hkept : ((w.pool.complete t false).2.catalog.stored? q).isSome = true := by
      rw [Pool.isSome_stored?_of_tables (Pool.completes w.pool t false).tables_eq]
      exact hcan.stored
    have hsynced : q ∉ (w.pool.complete t false).2.unsynced := by
      rcases hcan.undo with hchanged | hsynced
      · -- a page that is cached with the change has been rolled back
        obtain ⟨d, hd⟩ := Option.isSome_iff_exists.1 hchanged
        obtain ⟨page, hcached, hdirty, -⟩ := Pool.changed?_eq_some.1 hd
        refine Pool.synced_abort ht hok (List.mem_map.2 ⟨page, ?_, ?_⟩)
        · have hid := hsound.agrees.resident.id_eq hcached
          exact (Pool.mem_dirtiedBy hsound.agrees.resident).2 ⟨hid ▸ hcached, hdirty⟩
        · exact hsound.agrees.resident.id_eq hcached
      · exact mt Pool.unsynced_abort hsynced
    obtain ⟨d, hd⟩ := Option.isSome_iff_exists.1 hkept
    obtain rfl := hdone.stored_eq hsynced hd
    exact hd
  · intro w' hw' i u page hf
    have habort : Restorable w (.complete t false) := ⟨hidle, nofun⟩
    have hnone : ∀ v, (w.perform (.complete t false)).pool.changed? v q = none := by
      intro v
      refine hdone.changed?_eq.trans ?_
      by_cases hv : v = t
      · exact if_pos hv
      · exact (if_neg hv).trans (hsound.agrees.pending_eq_none hcan.held (Ne.symm hv))
    obtain ⟨k', hsound', -, hcommitted, hstill⟩ :=
      stays_committed hw' (hsound.perform ho habort) (ho.perform habort.1) hnone
    exact (hsound'.fetches hf (hstill u)).trans hcommitted

/-- A change is dropped, made again and flushed. -/
def droppedThenFlushed : List Action :=
  [.begin, .call 0 (.insert ⟨1⟩ ⟨1⟩ [7]), .turn 0, .discard ⟨⟨1⟩, 0⟩,
    .call 1 (.insert ⟨1⟩ ⟨1⟩ [8]), .turn 0, .flush ⟨⟨1⟩, 0⟩]

/-- The first transaction is about to abort. -/
def beforeAbort : World := (ofPool onePage).performAll droppedThenFlushed

def fetchByAnother : List Action := [.begin, .call 2 (.fetch ⟨2⟩ ⟨⟨1⟩, 0⟩ .readOnly)]

theorem flushed_change_taken_back :
    beforeAbort.pool.catalog.stored? ⟨⟨1⟩, 0⟩ = some [1, 8] ∧
      (beforeAbort.perform (.complete ⟨1⟩ false)).pool.catalog.stored? ⟨⟨1⟩, 0⟩ = some [0, 0] ∧
      ∃ page, ((beforeAbort.perform (.complete ⟨1⟩ false)).performAll fetchByAnother).Fetches 0 ⟨2⟩
          ⟨⟨1⟩, 0⟩ page ∧ page.data = [0, 0] := by
  have hrun : Tallies note Restorable (ofPool onePage) (begun onePage) beforeAbort _ :=
    Tallies.refl.performAll (by decide +kernel)
  obtain ⟨hstored, hlater⟩ := abort_restores Catalog.sound_oneSlot make_onePage hrun (t := ⟨1⟩)
    (by decide +kernel) (by decide +kernel) (by decide +kernel) ⟨⟨1⟩, 0⟩ (by decide +kernel)
  have hleaves : Follows (Leaves ⟨⟨1⟩, 0⟩) (beforeAbort.perform (.complete ⟨1⟩ false))
      fetchByAnother :=
    ⟨⟨⟨trivial, nofun⟩, nofun⟩, ⟨⟨by decide +kernel, nofun⟩, nofun⟩, trivial⟩
  have hfetches : ((beforeAbort.perform (.complete ⟨1⟩ false)).performAll fetchByAnother).Fetches 0
      ⟨2⟩ ⟨⟨1⟩, 0⟩ (.ofStored ⟨⟨1⟩, 0⟩ [0, 0]) := ⟨_, _, rfl, rfl, rfl, rfl, rfl⟩
  refine ⟨by decide +kernel, hstored, _, hfetches, ?_⟩
  exact hlater _ (Reaches.refl.performAll hleaves) _ _ _ hfetches

/-- A change is flushed, and then its page is dropped with the note that the store has other bytes
than the committed ones. -/
def flushedThenDropped : List Action :=
  [.begin, .call 0 (.insert ⟨1⟩ ⟨1⟩ [7]), .turn 0, .flush ⟨⟨1⟩, 0⟩, .discard ⟨⟨1⟩, 0⟩]

/-- Nothing can take such a change back. -/
theorem dropped_change_survives_abort :
    let w := (ofPool onePage).performAll flushedThenDropped
    let k := Tallies.noteAll note (ofPool onePage) (begun onePage) flushedThenDropped
    Follows SingleCalls (ofPool onePage) flushedThenDropped ∧
      w.Idle ⟨1⟩ ∧ w.pool.isActive ⟨1⟩ = true ∧ (w.pool.complete ⟨1⟩ false).1 = .ok () ∧
      ⟨⟨1⟩, 0⟩ ∈ k.modified ⟨1⟩ ∧ k.committed ⟨⟨1⟩, 0⟩ = [0, 0] ∧
      (w.perform (.complete ⟨1⟩ false)).pool.catalog.stored? ⟨⟨1⟩, 0⟩ = some [1, 7] ∧
      ((w.perform (.complete ⟨1⟩ false)).performAll fetchByAnother).Fetches 0 ⟨2⟩ ⟨⟨1⟩, 0⟩
        (.ofStored ⟨⟨1⟩, 0⟩ [1, 7]) := by
  refine ⟨by decide +kernel, by decide +kernel, by decide +kernel, by decide +kernel,
    by decide +kernel, by decide +kernel, by decide +kernel, ?_⟩
  exact ⟨_, _, rfl, rfl, rfl, rfl, rfl⟩

end Changes

end World

end PagePool
