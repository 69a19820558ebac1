import PagePool.Proofs.Pool.Bounds

namespace PagePool

namespace Catalog

/-- Why the store would refuse a page, if it would. -/
def refusal? (c : Catalog) (page : Page) : Option Error :=
  match c.writePage page with
  | .ok _ => none
  | .error e => some e

variable {c c' : Catalog} {page : Page} {e : Error}

theorem refusal?_eq_none : c.refusal? page = none ↔ ∃ c', c.writePage page = .ok c' := by
  unfold refusal?
  cases c.writePage page <;> simp

theorem refusal?_eq_some : c.refusal? page = some e ↔ c.writePage page = .error e := by
  unfold refusal?
  cases c.writePage page <;> simp

/-- What the files hold is no reason to refuse a page. -/
theorem refusal?_of_tables (h : c'.tables = c.tables) (page : Page) :
    c'.refusal? page = c.refusal? page := by
  unfold refusal? writePage table
  rw [h]
  cases c.tables.get? page.id.table with
  | none => rfl
  | some t =>
    simp only [HeapTable.writePage, PageFile.write]
    by_cases hfault : t.faults.writes.contains page.id.pageNo = true
    · rw [if_pos hfault, if_pos hfault]
      rfl
    rw [if_neg hfault, if_neg hfault]
    cases t.checkPage page.id with
    | error e => rfl
    | ok u =>
      simp only
      cases t.file.checkRange page.id.pageNo with
      | error e => rfl
      | ok u =>
        simp only
        by_cases hlength : page.data.length = t.file.pageSize
        · rw [if_pos hlength, if_pos hlength]
          rfl
        · rw [if_neg hlength, if_neg hlength]
          rfl

end Catalog

/-- How one page stands: its cached copy, whether the store has missed its bytes, whether it may be
evicted, and its stored bytes. -/
structure Standing where
  cached : Option Page
  unsynced : Bool
  evictable : Bool
  stored : Option Bytes
  deriving DecidableEq, Repr

namespace Pool

def standing (p : Pool) (q : PageId) : Standing :=
  ⟨p.pages.get? q, p.unsynced.contains q, p.recency.isEvictable q, p.catalog.stored? q⟩

/-- A committed page is in the cache with its new bytes for good. If the store refuses it, the store
has missed them, and the page must stay. -/
def committedStanding (p : Pool) (page : Page) : Standing :=
  match p.catalog.refusal? page with
  | none => ⟨some page.committed, false, true, some page.data⟩
  | some _ => ⟨some page.committed, true, false, p.catalog.stored? page.id⟩

/-- Why the page cannot be written back, if it is to be and cannot. -/
def rollBackFailure? (p : Pool) (page : Page) : Option Error :=
  if p.unsynced.contains page.id then p.catalog.refusal? page.beforeImage else none

/-- A page that is rolled back is in the cache with its before-image. The store has that already, or
is given it, or refuses it; then the page must stay. -/
def rolledBackStanding (p : Pool) (page : Page) : Standing :=
  if p.unsynced.contains page.id then
    match p.catalog.refusal? page.beforeImage with
    | none => ⟨some page.beforeImage, false, true, some page.before⟩
    | some _ => ⟨some page.beforeImage, true, false, p.catalog.stored? page.id⟩
  else ⟨some page.beforeImage, false, true, p.catalog.stored? page.id⟩

/-- What comes of an attempt. -/
def report : Option Error → Except Error Unit
  | none => .ok ()
  | some e => .error e

variable {p p' k : Pool} {q r : PageId} {page : Page} {pages : List Page} {t : TransactionId}
  {e : Error}

/-! One page. -/

theorem standing_settlePage (page : Page) (h : k.recency.isTracked page.id = true) (on : Bool)
    (r : PageId) :
    (k.settlePage page on).standing r =
      if r = page.id then { k.standing r with cached := some page, evictable := on }
      else k.standing r := by
  have hevictable : (k.recency.setEvictable page.id on).isEvictable r =
      if r = page.id then on else k.recency.isEvictable r := by
    rw [Bool.eq_iff_iff, Recency.isEvictable_setEvictable]
    split <;> simp [h]
  simp only [standing, settlePage, OrdMap.get?_insert, hevictable]
  split <;> rfl

/-- A page that the store has taken is settled as a clean one. -/
theorem standing_noteWritten (written clean : Page) {catalog : Catalog} (hs : p.catalog.Sound)
    (hw : p.catalog.writePage written = .ok catalog) (hid : clean.id = written.id)
    (htracked : p.recency.isTracked written.id = true) (r : PageId) :
    ((p.noteWritten written.id catalog).settlePage clean true).standing r =
      if r = written.id then ⟨some clean, false, true, some written.data⟩ else p.standing r := by
  have hstored := Catalog.stored?_writePage hs hw r
  have hsettled := standing_settlePage (k := p.noteWritten written.id catalog) clean
    (hid ▸ htracked) true r
  rw [hsettled, hid]
  simp only [standing, noteWritten, OrdSet.contains_erase, hstored]
  by_cases hr : r = written.id
  · simp only [hr, if_true]
  · simp only [hr, if_false]

theorem standing_writeCommitted (h : p.Intact) (hq : p.pages.get? page.id = some page)
    (r : PageId) : (p.writeCommitted page).2.standing r =
      if r = page.id then p.committedStanding page else p.standing r := by
  have htracked : p.recency.isTracked page.id = true :=
    h.resident.tracked_iff.2 (isCached_iff.2 ⟨page, hq⟩)
  unfold writeCommitted committedStanding
  cases hw : p.catalog.writePage page with
  | ok catalog =>
    rw [Catalog.refusal?_eq_none.2 ⟨catalog, hw⟩]
    exact standing_noteWritten page page.committed h.catalog hw rfl htracked r
  | error e =>
    have hsettled := standing_settlePage (k := { p with unsynced := p.unsynced.insert page.id })
      page.committed htracked false r
    rw [Catalog.refusal?_eq_some.2 hw, hsettled]
    simp only [standing, OrdSet.contains_insert, Page.committed, Page.ofStored]
    by_cases hr : r = page.id
    · simp only [hr, if_true]
    · simp only [hr, if_false]

theorem standing_rollBack (h : p.Intact) (hq : p.pages.get? page.id = some page) (r : PageId) :
    (p.rollBack page).2.standing r =
      if r = page.id then p.rolledBackStanding page else p.standing r := by
  have htracked : p.recency.isTracked page.id = true :=
    h.resident.tracked_iff.2 (isCached_iff.2 ⟨page, hq⟩)
  have hsettled (on : Bool) : (p.settlePage page.beforeImage on).standing r =
      if r = page.id then ⟨some page.beforeImage, p.unsynced.contains page.id, on,
        p.catalog.stored? page.id⟩ else p.standing r := by
    rw [standing_settlePage page.beforeImage htracked]
    by_cases hr : r = page.id
    · simp only [standing, Page.beforeImage, Page.ofStored, hr, if_true]
    · simp only [Page.beforeImage, Page.ofStored, hr, if_false]
  unfold rollBack rolledBackStanding
  by_cases hm : p.unsynced.contains page.id = true
  · rw [if_pos hm, if_pos hm]
    cases hw : p.catalog.writePage page.beforeImage with
    | ok catalog =>
      rw [Catalog.refusal?_eq_none.2 ⟨catalog, hw⟩]
      exact standing_noteWritten page.beforeImage page.beforeImage h.catalog hw rfl htracked r
    | error e =>
      rw [Catalog.refusal?_eq_some.2 hw]
      exact (hsettled false).trans (by rw [hm])
  · rw [if_neg hm, if_neg hm]
    rw [Bool.not_eq_true] at hm
    exact (hsettled true).trans (by rw [hm])

theorem result_writeCommitted (p : Pool) (page : Page) :
    (p.writeCommitted page).1 = report (p.catalog.refusal? page) := by
  unfold writeCommitted Catalog.refusal?
  cases p.catalog.writePage page <;> rfl

theorem result_rollBack (p : Pool) (page : Page) :
    (p.rollBack page).1 = report (p.rollBackFailure? page) := by
  unfold rollBack rollBackFailure? Catalog.refusal?
  split
  · cases p.catalog.writePage page.beforeImage <;> rfl
  · rfl

/-! Pages one after the other. -/

theorem findSome?_congr {f g : Page → Option Error} (h : ∀ page ∈ pages, f page = g page) :
    pages.findSome? f = pages.findSome? g := by
  induction pages with
  | nil => rfl
  | cons page pages ih =>
    obtain ⟨hfirst, hrest⟩ := List.forall_mem_cons.1 h
    rw [List.findSome?_cons, List.findSome?_cons, hfirst, ih hrest]

/-- Nothing that matters for one page tells two pools apart. -/
structure SameAt (q : PageId) (p p' : Pool) : Prop where
  tables_eq : p'.catalog.tables = p.catalog.tables
  standing_eq : p'.standing q = p.standing q

/-- What a handler of cached pages does to each: how it fails, and how the page stands afterwards.
Neither depends on more than the tables and how the page stood before. -/
structure Handles (handle : Pool → Page → Except Error Unit × Pool)
    (failure? : Pool → Page → Option Error) (outcome : Pool → Page → Standing) : Prop where
  result : ∀ p page, (handle p page).1 = report (failure? p page)
  tables_eq : ∀ p page, (handle p page).2.catalog.tables = p.catalog.tables
  intact : ∀ {p page}, p.Intact → p.pages.get? page.id = some page → (handle p page).2.Intact
  standing : ∀ {p page}, p.Intact → p.pages.get? page.id = some page → ∀ r,
    (handle p page).2.standing r = if r = page.id then outcome p page else p.standing r
  failure?_congr : ∀ {p p' page}, SameAt page.id p p' → failure? p' page = failure? p page
  outcome_congr : ∀ {p p' page}, SameAt page.id p p' → outcome p' page = outcome p page

/-- Pages have been handled: the first failure is the result, each of them stands as it should, and
the others stand as they did. -/
structure Handled (pages : List Page) (failure? : Pool → Page → Option Error)
    (outcome : Pool → Page → Standing) (p : Pool) (o : Except Error Unit × Pool) : Prop where
  result : o.1 = report (pages.findSome? (failure? p))
  tables_eq : o.2.catalog.tables = p.catalog.tables
  standing : ∀ page ∈ pages, o.2.standing page.id = outcome p page
  others : ∀ r, r ∉ pages.map Page.id → o.2.standing r = p.standing r

theorem SameAt.unsynced (h : SameAt q p p') : p'.unsynced.contains q = p.unsynced.contains q :=
  congrArg Standing.unsynced h.standing_eq

theorem SameAt.stored (h : SameAt q p p') : p'.catalog.stored? q = p.catalog.stored? q :=
  congrArg Standing.stored h.standing_eq

theorem SameAt.cached (h : SameAt q p p') : p'.pages.get? q = p.pages.get? q :=
  congrArg Standing.cached h.standing_eq

theorem handles_writeCommitted :
    Handles writeCommitted (fun p => p.catalog.refusal?) committedStanding where
  result := result_writeCommitted
  tables_eq p page := (writeCommitted_keeps p page).1
  intact h hq := (Settles.writeCommitted h (isCached_iff.2 ⟨_, hq⟩) (h.whole hq)).silent.intact
  standing h hq := standing_writeCommitted h hq
  failure?_congr h := Catalog.refusal?_of_tables h.tables_eq _
  outcome_congr h := by
    rw [committedStanding, committedStanding, Catalog.refusal?_of_tables h.tables_eq, h.stored]

theorem handles_rollBack : Handles rollBack rollBackFailure? rolledBackStanding where
  result := result_rollBack
  tables_eq p page := (rollBack_keeps p page).1
  intact h hq := (Settles.rollBack h (isCached_iff.2 ⟨_, hq⟩) (h.whole hq)).silent.intact
  standing h hq := standing_rollBack h hq
  failure?_congr h := by
    rw [rollBackFailure?, rollBackFailure?, Catalog.refusal?_of_tables h.tables_eq, h.unsynced]
  outcome_congr h := by
    rw [rolledBackStanding, rolledBackStanding, Catalog.refusal?_of_tables h.tables_eq, h.stored,
      h.unsynced]

namespace Handles

variable {handle : Pool → Page → Except Error Unit × Pool}
  {failure? : Pool → Page → Option Error} {outcome : Pool → Page → Standing}

theorem sameAt (hh : Handles handle failure? outcome) (h : p.Intact)
    (hq : p.pages.get? page.id = some page) (hr : r ≠ page.id) :
    SameAt r p (handle p page).2 :=
  ⟨hh.tables_eq p page, (hh.standing h hq r).trans (if_neg hr)⟩

/-- The others wait for their turn as they were. -/
theorem sameAt_of_mem (hh : Handles handle failure? outcome) (h : p.Intact)
    (hq : p.pages.get? page.id = some page) (hnot : page.id ∉ pages.map Page.id) :
    ∀ other ∈ pages, SameAt other.id p (handle p page).2 := by
  intro other hother
  exact hh.sameAt h hq fun he => hnot (he ▸ List.mem_map_of_mem hother)

theorem forEachPage (hh : Handles handle failure? outcome) (h : p.Intact)
    (hnodup : (pages.map Page.id).Nodup)
    (hpages : ∀ page ∈ pages, p.pages.get? page.id = some page) :
    Handled pages failure? outcome p (forEachPage handle p pages) := by
  induction pages generalizing p with
  | nil => exact ⟨rfl, rfl, nofun, fun _ _ => rfl⟩
  | cons page pages ih =>
    rw [List.map_cons, List.nodup_cons] at hnodup
    obtain ⟨hq, hrest⟩ := List.forall_mem_cons.1 hpages
    have hsame := hh.sameAt_of_mem h hq hnodup.1
    have hlater := ih (hh.intact h hq) hnodup.2 fun other hother =>
      (hsame other hother).cached.trans (hrest other hother)
    refine ⟨?_, hlater.tables_eq.trans (hh.tables_eq p page), ?_, ?_⟩
    · have hfailures : pages.findSome? (failure? (handle p page).2) =
          pages.findSome? (failure? p) :=
        findSome?_congr fun other hother => hh.failure?_congr (hsame other hother)
      have hresult : (Pool.forEachPage handle p (page :: pages)).1 =
          (handle p page).1 >>= fun _ =>
            (Pool.forEachPage handle (handle p page).2 pages).1 := rfl
      rw [hresult, hh.result, hlater.result, hfailures, List.findSome?_cons]
      cases failure? p page <;> rfl
    · intro other hother
      rcases List.mem_cons.1 hother with rfl | hother
      · exact (hlater.others other.id hnodup.1).trans
          ((hh.standing h hq other.id).trans (if_pos rfl))
      · exact (hlater.standing other hother).trans (hh.outcome_congr (hsame other hother))
    · intro r hr
      rw [List.map_cons, List.mem_cons, not_or] at hr
      exact (hlater.others r hr.2).trans ((hh.standing h hq r).trans (if_neg hr.1))

/-- Each page is handed to the store, if it is, by a pool in which its own turn has just come. -/
theorem exists_turn (hh : Handles handle failure? outcome)
    (writes : Pool → Page → List StoreWrite) (h : p.Intact) (hnodup : (pages.map Page.id).Nodup)
    (hpages : ∀ page ∈ pages, p.pages.get? page.id = some page) (hpage : page ∈ pages) :
    ∃ k, SameAt page.id p k ∧ ∀ x ∈ writes k page, x ∈ writesEach handle writes p pages := by
  induction pages generalizing p with
  | nil => contradiction
  | cons first pages ih =>
    rw [List.map_cons, List.nodup_cons] at hnodup
    obtain ⟨hq, hrest⟩ := List.forall_mem_cons.1 hpages
    rcases List.mem_cons.1 hpage with rfl | hpage
    · exact ⟨p, ⟨rfl, rfl⟩, fun x hx => List.mem_append_left _ hx⟩
    · have hfirst := hh.sameAt_of_mem h hq hnodup.1
      obtain ⟨k, hsame, hwrites⟩ := ih (hh.intact h hq) hnodup.2
        (fun other hother => (hfirst other hother).cached.trans (hrest other hother)) hpage
      refine ⟨k, ⟨hsame.tables_eq.trans (hfirst page hpage).tables_eq,
        hsame.standing_eq.trans (hfirst page hpage).standing_eq⟩, fun x hx => ?_⟩
      exact List.mem_append_right _ (hwrites x hx)

end Handles

/-! A completion handles the pages that its transaction has changed. -/

theorem handled_commit (h : p.Intact) (hlog : (p.logCommit t).1 = .ok ()) :
    Handled (p.dirtiedBy t) (fun p => p.catalog.refusal?) committedStanding p (p.commit t) := by
  rcases commit_cases p t with ⟨e, journal, hfailed, -⟩ | ⟨journal, stats, -, hresult, hpool⟩
  · rw [hlog] at hfailed
    contradiction
  · have hlogged : ({ p with journal } : Pool).Intact := h.congr rfl rfl rfl rfl fun _ => id
    have hwritten := handles_writeCommitted.forEachPage hlogged (nodup_dirtyPages h.resident t)
      fun page hpage => ((mem_dirtiedBy h.resident).1 hpage).1
    refine ⟨hresult.trans hwritten.result, ?_, fun page hpage => ?_, fun r hr => ?_⟩
    · rw [hpool]
      exact hwritten.tables_eq
    · rw [hpool]
      exact hwritten.standing page hpage
    · rw [hpool]
      exact hwritten.others r hr

/-- The result of the abort as a whole is that of its log record, if no page fails. -/
theorem handled_abort (h : p.Intact) (t : TransactionId) :
    Handled (p.dirtiedBy t) rollBackFailure? rolledBackStanding p
      ((forEachPage rollBack p (p.dirtiedBy t)).1, (p.abort t).2) := by
  have hrolled := handles_rollBack.forEachPage h (nodup_dirtyPages h.resident t)
    fun page hpage => ((mem_dirtiedBy h.resident).1 hpage).1
  rcases abort_cases p t with ⟨-, journal, stats, hpool⟩ | ⟨hinactive, hpool⟩
  · rw [hpool]
    exact ⟨hrolled.result, hrolled.tables_eq, hrolled.standing, hrolled.others⟩
  · -- who is not active has changed no page
    have hnone : p.dirtiedBy t = [] := by
      refine List.eq_nil_iff_forall_not_mem.2 fun page hpage => hinactive ?_
      obtain ⟨hq, ht⟩ := (mem_dirtiedBy h.resident).1 hpage
      exact h.owner_active hq ht
    rw [hnone] at hrolled ⊢
    rw [hpool]
    exact ⟨hrolled.result, hrolled.tables_eq, hrolled.standing, hrolled.others⟩

theorem result_abort (ht : p.isActive t = true) :
    (p.abort t).1 = (forEachPage rollBack p (p.dirtiedBy t)).1 >>= fun _ =>
      (p.journal.append (.abort t)).map fun _ => () := by
  have hjournal := journal_rollBack_all p (p.dirtiedBy t)
  rw [abort, if_pos ht]
  rcases hall : forEachPage rollBack p (p.dirtiedBy t) with ⟨restored, p₁⟩
  have hsame : p₁.journal = p.journal := by rwa [hall] at hjournal
  simp only [hsame]
  cases p.journal.append (.abort t) <;> rfl

end Pool

end PagePool
