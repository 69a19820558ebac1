import PagePool.Proofs.Pool.Logging

namespace PagePool

/-- A page on its way to the store, and the pool as it is when it hands the page over. -/
structure StoreWrite where
  pool : Pool
  page : Page

namespace StoreWrite

/-- The store takes the page, or refuses it and stays as it was. -/
def stored (x : StoreWrite) : Catalog :=
  match x.pool.catalog.writePage x.page with
  | .ok catalog => catalog
  | .error _ => x.pool.catalog

/-- These records are durable when the page is written, in this order. -/
def Behind (x : StoreWrite) (rs : List LogRecord) : Prop :=
  ∃ log, x.pool.journal.medium.durableRecords = .ok log ∧ rs.Sublist log

theorem Behind.of_sublist {x : StoreWrite} {rs rs' : List LogRecord} (h : x.Behind rs)
    (hsub : rs'.Sublist rs) : x.Behind rs' := by
  obtain ⟨log, hdurable, hlog⟩ := h
  exact ⟨log, hdurable, hsub.trans hlog⟩

/-- Writes that take the store from one state to another, each from where the last one left it. -/
def Lead : Catalog → List StoreWrite → Catalog → Prop
  | c, [], c' => c' = c
  | c, x :: xs, c' => x.pool.catalog = c ∧ Lead x.stored xs c'

theorem Lead.append {c c' c'' : Catalog} {xs ys : List StoreWrite} (h : Lead c xs c')
    (h' : Lead c' ys c'') : Lead c (xs ++ ys) c'' := by
  induction xs generalizing c with
  | nil =>
    obtain rfl : c' = c := h
    exact h'
  | cons x xs ih => exact ⟨h.1, ih h.2⟩

end StoreWrite

namespace Pool

/-! The writes that completions and flushes make, in order. -/

/-- The writes for pages that are handled one after the other. -/
def writesEach (handle : Pool → Page → Except Error Unit × Pool)
    (writes : Pool → Page → List StoreWrite) : Pool → List Page → List StoreWrite
  | _, [] => []
  | p, page :: pages => writes p page ++ writesEach handle writes (handle p page).2 pages

/-- A commit writes every page that its transaction has changed, if it has been logged. -/
def commitWrites (p : Pool) (t : TransactionId) : List StoreWrite :=
  match p.logCommit t with
  | (.error _, _) => []
  | (.ok (), logged) => writesEach writeCommitted (fun k page => [⟨k, page⟩]) logged (p.dirtiedBy t)

/-- A page is written back if the store may not have its before-image. -/
def rollBackWrites (p : Pool) (page : Page) : List StoreWrite :=
  if p.unsynced.contains page.id then [⟨p, page.beforeImage⟩] else []

def abortWrites (p : Pool) (t : TransactionId) : List StoreWrite :=
  if p.isActive t then writesEach rollBack rollBackWrites p (p.dirtiedBy t) else []

def completeWrites (p : Pool) (t : TransactionId) (commit : Bool) : List StoreWrite :=
  if commit then p.commitWrites t else p.abortWrites t

/-- A flush writes a changed page once that is logged, and a clean one that the store has missed. -/
def flushWrites (p : Pool) (q : PageId) : List StoreWrite :=
  match p.pages.get? q with
  | none => []
  | some page =>
    match page.dirtiedBy with
    | some owner =>
      match p.logFlush owner page with
      | (.error _, _) => []
      | (.ok (), logged) => [⟨logged, page⟩]
    | none => if p.unsynced.contains page.id then [⟨p, page⟩] else []

def flushEachWrites (p : Pool) : List PageId → List StoreWrite
  | [] => []
  | q :: qs =>
    p.flushWrites q ++
      match p.flush q with
      | (.error _, _) => []
      | (.ok (), p) => flushEachWrites p qs

variable {p k : Pool} {t u : TransactionId} {q : PageId} {page : Page} {x : StoreWrite}
  {rs : List LogRecord} {n : Nat}

theorem lead_writesEach {handle : Pool → Page → Except Error Unit × Pool}
    {writes : Pool → Page → List StoreWrite}
    (hstep : ∀ p page, StoreWrite.Lead p.catalog (writes p page) (handle p page).2.catalog)
    (p : Pool) (pages : List Page) :
    StoreWrite.Lead p.catalog (writesEach handle writes p pages)
      (forEachPage handle p pages).2.catalog := by
  induction pages generalizing p with
  | nil => exact rfl
  | cons page pages ih => exact (hstep p page).append (ih (handle p page).2)

theorem lead_writeCommitted (p : Pool) (page : Page) :
    StoreWrite.Lead p.catalog [⟨p, page⟩] (p.writeCommitted page).2.catalog := by
  refine ⟨rfl, ?_⟩
  simp only [StoreWrite.Lead, StoreWrite.stored, writeCommitted]
  cases p.catalog.writePage page <;> rfl

theorem lead_rollBack (p : Pool) (page : Page) :
    StoreWrite.Lead p.catalog (p.rollBackWrites page) (p.rollBack page).2.catalog := by
  unfold rollBackWrites rollBack
  split
  · refine ⟨rfl, ?_⟩
    simp only [StoreWrite.Lead, StoreWrite.stored]
    cases p.catalog.writePage page.beforeImage <;> rfl
  · exact rfl

theorem lead_commit (p : Pool) (t : TransactionId) :
    StoreWrite.Lead p.catalog (p.commitWrites t) (p.commit t).2.catalog := by
  obtain ⟨result, journal, hlog⟩ := logCommit_eq p t
  simp only [commitWrites, commit, hlog]
  cases result with
  | error e => exact rfl
  | ok u => exact lead_writesEach lead_writeCommitted { p with journal } (p.dirtiedBy t)

theorem lead_abort (p : Pool) (t : TransactionId) :
    StoreWrite.Lead p.catalog (p.abortWrites t) (p.abort t).2.catalog := by
  unfold abortWrites
  rcases abort_cases p t with ⟨ht, journal, stats, habort⟩ | ⟨ht, habort⟩
  · rw [if_pos ht, habort]
    exact lead_writesEach lead_rollBack p (p.dirtiedBy t)
  · rw [if_neg ht, habort]
    exact rfl

theorem lead_complete (p : Pool) (t : TransactionId) (commit : Bool) :
    StoreWrite.Lead p.catalog (p.completeWrites t commit) (p.complete t commit).2.catalog := by
  cases commit with
  | true => exact lead_commit p t
  | false => exact lead_abort p t

theorem lead_flush (p : Pool) (q : PageId) :
    StoreWrite.Lead p.catalog (p.flushWrites q) (p.flush q).2.catalog := by
  unfold flushWrites flush
  cases p.pages.get? q with
  | none => exact rfl
  | some page =>
    simp only
    cases page.dirtiedBy with
    | some owner =>
      obtain ⟨result, journal, hlog⟩ := logFlush_eq p owner page
      simp only [flushDirty, hlog]
      cases result with
      | error e => exact rfl
      | ok u =>
        refine ⟨rfl, ?_⟩
        simp only [StoreWrite.Lead, StoreWrite.stored]
        cases p.catalog.writePage page with
        | error e => rfl
        | ok catalog =>
          simp only
          split <;> rfl
    | none =>
      simp only [flushClean]
      split
      · refine ⟨rfl, ?_⟩
        simp only [StoreWrite.Lead, StoreWrite.stored]
        cases p.catalog.writePage page <;> rfl
      · exact rfl

theorem lead_flushEach (p : Pool) (qs : List PageId) :
    StoreWrite.Lead p.catalog (p.flushEachWrites qs) (p.flushEach qs).2.catalog := by
  induction qs generalizing p with
  | nil => exact rfl
  | cons q qs ih =>
    have hfirst := lead_flush p q
    unfold flushEachWrites flushEach
    rcases hf : p.flush q with ⟨result, p'⟩
    rw [hf] at hfirst
    cases result with
    | error e =>
      simp only [List.append_nil]
      exact hfirst
    | ok u => exact hfirst.append (ih p')

/-! What is durable by then. -/

/-- Each page that a commit writes is still as the commit has found it, and so is the log. -/
theorem mem_writesEach_writeCommitted {pages : List Page} (hnodup : (pages.map Page.id).Nodup)
    (hpages : ∀ page ∈ pages, p.pages.get? page.id = some page)
    (hx : x ∈ writesEach writeCommitted (fun k page => [⟨k, page⟩]) p pages) :
    x.page ∈ pages ∧ x.pool.pages.get? x.page.id = some x.page ∧ x.pool.journal = p.journal := by
  induction pages generalizing p with
  | nil => contradiction
  | cons page pages ih =>
    rw [List.map_cons, List.nodup_cons] at hnodup
    obtain ⟨hq, hrest⟩ := List.forall_mem_cons.1 hpages
    rcases List.mem_append.1 hx with hx | hx
    · rw [List.mem_singleton.1 hx]
      exact ⟨List.mem_cons_self, hq, rfl⟩
    · have hlater : ∀ other ∈ pages,
          (p.writeCommitted page).2.pages.get? other.id = some other := by
        intro other hother
        have hne : other.id ≠ page.id := fun he => hnodup.1 (he ▸ List.mem_map_of_mem hother)
        rw [get?_writeCommitted, if_neg hne]
        exact hrest other hother
      obtain ⟨hmem, hcached, hjournal⟩ := ih hnodup.2 hlater hx
      exact ⟨List.mem_cons_of_mem _ hmem, hcached, hjournal.trans (journal_writeCommitted p page)⟩

/-- The commit record comes after the change of each page. -/
theorem sublist_commitRecords (hpage : page ∈ p.dirtiedBy t) :
    [updateRecord t page, .commit t].Sublist (p.commitRecords t) := by
  have hchange : [updateRecord t page].Sublist ((p.dirtiedBy t).map (updateRecord t)) :=
    List.singleton_sublist.2 (List.mem_map_of_mem hpage)
  exact hchange.append (List.Sublist.refl [LogRecord.commit t])

theorem behind_commitWrites (h : p.Intact) (hp : p.Records) (hrs : p.journal.medium.Holds rs n)
    (hx : x ∈ p.commitWrites t) :
    x.page.dirtiedBy = some t ∧ x.pool.pages.get? x.page.id = some x.page ∧
      x.Behind [updateRecord t x.page] ∧
        (p.journal.medium.keeps (.commit t) = true →
          x.Behind [updateRecord t x.page, .commit t]) := by
  unfold commitWrites at hx
  rw [logCommit_eq_log] at hx
  have hdurable := Journal.durableRecords_of_log hrs (takes_commitRecords h hp t)
  rcases hlog : p.journal.log (p.commitRecords t) with ⟨result, journal⟩
  rw [hlog] at hx hdurable
  cases result with
  | error e => contradiction
  | ok u =>
    have hx' : x ∈ writesEach writeCommitted (fun k page => [⟨k, page⟩]) { p with journal }
        (p.dirtiedBy t) := hx
    have hpages : ∀ page ∈ p.dirtiedBy t,
        ({ p with journal } : Pool).pages.get? page.id = some page :=
      fun page hpage => ((mem_dirtiedBy h.resident).1 hpage).1
    obtain ⟨hmem, hcached, hjournal⟩ :=
      mem_writesEach_writeCommitted (nodup_dirtyPages h.resident t) hpages hx'
    have hlogged : x.pool.journal.medium.durableRecords =
        .ok (rs ++ (p.commitRecords t).filter p.journal.medium.keeps) := by
      rw [hjournal]
      exact hdurable rfl
    -- a log that keeps changes only has no commit record, so what is behind the page is filtered
    have hsub := (sublist_commitRecords hmem).filter p.journal.medium.keeps
    have hbehind : x.Behind ([updateRecord t x.page, .commit t].filter p.journal.medium.keeps) :=
      ⟨_, hlogged, hsub.trans (List.sublist_append_right _ _)⟩
    have hupdate : p.journal.medium.keeps (updateRecord t x.page) = true :=
      LogMedium.keeps_of_update _ rfl
    rw [List.filter_cons_of_pos hupdate] at hbehind
    refine ⟨((mem_dirtiedBy h.resident).1 hmem).2, hcached,
      hbehind.of_sublist (List.singleton_sublist.2 List.mem_cons_self), fun hkept => ?_⟩
    rwa [List.filter_cons_of_pos hkept] at hbehind

theorem behind_flushWrites (h : p.Intact) (hp : p.Records) (hrs : p.journal.medium.Holds rs n)
    (hx : x ∈ p.flushWrites q) (ht : x.page.dirtiedBy = some t) :
    x.pool.pages.get? x.page.id = some x.page ∧ x.Behind [updateRecord t x.page] := by
  unfold flushWrites at hx
  cases hq : p.pages.get? q with
  | none =>
    rw [hq] at hx
    contradiction
  | some page =>
    have hid := h.resident.id_eq hq
    subst hid
    rw [hq] at hx
    simp only at hx
    cases hown : page.dirtiedBy with
    | none =>
      rw [hown] at hx
      simp only at hx
      split at hx
      · rw [List.mem_singleton.1 hx, hown] at ht
        contradiction
      · contradiction
    | some owner =>
      have hrecords : p.flushRecords owner page = [updateRecord owner page] :=
        if_pos (h.owner_active hq hown)
      rw [hown] at hx
      simp only [logFlush_eq_log] at hx
      have htakes : ∀ r ∈ p.flushRecords owner page, p.journal.medium.Takes r :=
        takes_flushRecords hp (h.whole hq)
      have hdurable := Journal.durableRecords_of_log hrs htakes
      rcases hlog : p.journal.log (p.flushRecords owner page) with ⟨result, journal⟩
      rw [hlog] at hx hdurable
      cases result with
      | error e => contradiction
      | ok u =>
        obtain rfl := List.mem_singleton.1 hx
        obtain rfl : owner = t := Option.some.inj (hown.symm.trans ht)
        refine ⟨hq, _, hdurable rfl, ?_⟩
        have hkept : p.journal.medium.keeps (updateRecord owner page) = true :=
          LogMedium.keeps_of_update _ rfl
        rw [hrecords, List.filter_cons_of_pos hkept]
        exact List.sublist_append_right _ _

theorem behind_flushEachWrites {qs : List PageId} (h : p.Intact) (hp : p.Records)
    (hrs : p.journal.medium.Holds rs n) (hx : x ∈ p.flushEachWrites qs)
    (ht : x.page.dirtiedBy = some t) :
    x.pool.pages.get? x.page.id = some x.page ∧ x.Behind [updateRecord t x.page] := by
  induction qs generalizing p rs n with
  | nil => contradiction
  | cons q qs ih =>
    rcases List.mem_append.1 hx with hx | hx
    · exact behind_flushWrites h hp hrs hx ht
    · have hfirst := logs_flush h hp q
      rcases hf : p.flush q with ⟨result, p'⟩
      rw [hf] at hx hfirst
      cases result with
      | error e => contradiction
      | ok u =>
        obtain ⟨new, n', -, -, hrs'⟩ := hfirst.gains.holds hrs
        exact ih hfirst.intact (hfirst.records hp) hrs' hx

theorem clean_of_mem_rollBackWrites {pages : List Page}
    (hx : x ∈ writesEach rollBack rollBackWrites p pages) : x.page.dirtiedBy = none := by
  induction pages generalizing p with
  | nil => contradiction
  | cons page pages ih =>
    rcases List.mem_append.1 hx with hx | hx
    · unfold rollBackWrites at hx
      split at hx
      · rw [List.mem_singleton.1 hx]
        rfl
      · contradiction
    · exact ih hx

/-- What an abort writes has no owner. -/
theorem clean_of_mem_abortWrites (hx : x ∈ p.abortWrites t) : x.page.dirtiedBy = none := by
  unfold abortWrites at hx
  split at hx
  · exact clean_of_mem_rollBackWrites hx
  · contradiction

end Pool

/-- Whether a step is a completion or a flush. -/
def Action.WritesBack : Action → Prop
  | .complete _ _ => True
  | .flush _ => True
  | .flushAll => True
  | .flushOf _ => True
  | _ => False

namespace World

/-- The writes to the store that a step makes, in order. -/
def writes (w : World) : Action → List StoreWrite
  | .complete t commit => w.pool.completeWrites t commit
  | .flush q => w.pool.flushWrites q
  | .flushAll => w.pool.flushEachWrites w.pool.pages.keys
  | .flushOf t => w.pool.flushEachWrites (w.pool.dirtyPages t)
  | _ => []

variable {w start : World} {p : Pool} {capacity : Nat} {catalog : Catalog} {journal : Journal}
  {rule : World → Action → Prop}

/-- A completion or a flush does nothing else to the store. -/
theorem lead_writes (w : World) {a : Action} (ha : a.WritesBack) :
    StoreWrite.Lead w.pool.catalog (w.writes a) (w.perform a).pool.catalog := by
  cases a with
  | complete t commit => exact Pool.lead_complete w.pool t commit
  | flush q => exact Pool.lead_flush w.pool q
  | flushAll => exact Pool.lead_flushEach w.pool _
  | flushOf t => exact Pool.lead_flushEach w.pool _
  | _ => exact ha.elim

/-- Worlds stay intact, and journals keep what they have. -/
theorem Reaches.intact (hr : Reaches rule start w) (h : start.Intact) :
    w.Intact ∧ Journal.Gains (fun _ => True) start.pool.journal w.pool.journal := by
  induction hr with
  | refl => exact ⟨h, .refl _⟩
  | @step w a _ _ ih =>
    obtain ⟨hintact, hgains⟩ := ih
    obtain ⟨hnext, hstep⟩ := hintact.perform a
    exact ⟨hnext, hgains.trans (hstep.imp fun _ _ => trivial)⟩

variable {a : Action} {x : StoreWrite} {t u : TransactionId} {rs : List LogRecord} {n : Nat}

/-- A page with an owner is written as it is cached, and its change is durable by then. -/
theorem Intact.behind_writes (h : w.Intact) (hrs : w.pool.journal.medium.Holds rs n)
    (hx : x ∈ w.writes a) (ht : x.page.dirtiedBy = some t) :
    x.pool.pages.get? x.page.id = some x.page ∧ x.Behind [Pool.updateRecord t x.page] := by
  cases a with
  | complete u commit =>
    cases commit with
    | true =>
      obtain ⟨hown, hcached, hbehind, -⟩ := Pool.behind_commitWrites h.pool h.records hrs hx
      obtain rfl : u = t := Option.some.inj (hown.symm.trans ht)
      exact ⟨hcached, hbehind⟩
    | false =>
      rw [Pool.clean_of_mem_abortWrites hx] at ht
      contradiction
  | flush q => exact Pool.behind_flushWrites h.pool h.records hrs hx ht
  | flushAll => exact Pool.behind_flushEachWrites h.pool h.records hrs hx ht
  | flushOf u => exact Pool.behind_flushEachWrites h.pool h.records hrs hx ht
  | _ => contradiction

/-- What a commit writes is its own transaction's, and its own record is durable by then, if the
log keeps such records. -/
theorem Intact.behind_commit (h : w.Intact) (hrs : w.pool.journal.medium.Holds rs n)
    (hx : x ∈ w.writes (.complete u true)) (ht : x.page.dirtiedBy = some t) :
    u = t ∧ (w.pool.journal.medium.keeps (.commit t) = true →
      x.Behind [Pool.updateRecord t x.page, .commit t]) := by
  obtain ⟨hown, -, -, hbehind⟩ := Pool.behind_commitWrites h.pool h.records hrs hx
  obtain rfl : u = t := Option.some.inj (hown.symm.trans ht)
  exact ⟨rfl, hbehind⟩

/-- The log comes first, in whatever order calls, completions, flushes and failures come.
Completions and flushes change the store by their writes only. When one writes a page that a
transaction has changed, the cache has the page as it is written, and the change of its last
committed bytes to these is durable. A commit writes pages of its own transaction only, and by then
its own record is durable too, after the change. -/
theorem logged_before_written {given : List LogRecord} {n : Nat} (hs : catalog.Sound)
    (hp : Pool.make capacity catalog journal = .ok p) (hlog : journal.medium.Holds given n)
    (hfile : ∀ log, journal.medium = .file log → catalog.pageSize < 2 ^ 32)
    (hw : Reaches rule (ofPool p) w) (a : Action) :
    (a.WritesBack → StoreWrite.Lead w.pool.catalog (w.writes a) (w.perform a).pool.catalog) ∧
    ∀ x ∈ w.writes a, ∀ t, x.page.dirtiedBy = some t →
      x.pool.pages.get? x.page.id = some x.page ∧
      x.Behind [.update t x.page.id x.page.before x.page.data] ∧
      ∀ u, a = .complete u true → u = t ∧
        (journal.medium.keeps (.commit t) = true →
          x.Behind [.update t x.page.id x.page.before x.page.data, .commit t]) := by
  obtain ⟨hintact, hgains⟩ := hw.intact (intact_ofPool hs hp hfile)
  rw [journal_ofPool hp] at hgains
  obtain ⟨new, n', -, -, hrs⟩ := hgains.holds hlog
  refine ⟨lead_writes w, fun x hx t ht => ?_⟩
  obtain ⟨hcached, hbehind⟩ := hintact.behind_writes hrs hx ht
  refine ⟨hcached, hbehind, ?_⟩
  rintro u rfl
  rw [← hgains.keeps_eq]
  exact hintact.behind_commit hrs hx ht

/-- The page that a transaction has put a tuple into is flushed before the transaction commits. -/
def insertThenFlush : List Action :=
  [.begin, .call 0 (.insert ⟨1⟩ ⟨1⟩ [7]), .turn 0, .flush ⟨⟨1⟩, 0⟩]

theorem insert_logged_then_written :
    ∃ x ∈ ((ofPool onePage).performAll insertThenFlush).writes (.complete ⟨1⟩ true),
      x.page.data = [1, 7] ∧
        x.Behind [.update ⟨1⟩ ⟨⟨1⟩, 0⟩ [0, 0] [1, 7], .commit ⟨1⟩] := by
  have hw : Reaches Orderly (ofPool onePage) ((ofPool onePage).performAll insertThenFlush) :=
    Reaches.refl.performAll (by decide)
  have hpages : (((ofPool onePage).performAll insertThenFlush).writes (.complete ⟨1⟩ true)).map
      StoreWrite.page = [⟨⟨⟨1⟩, 0⟩, [1, 7], [0, 0], some ⟨1⟩⟩] := by decide +kernel
  obtain ⟨x, hx, hpage⟩ := List.mem_map.1 (hpages ▸ List.mem_singleton_self _)
  obtain ⟨-, -, hcommit⟩ := (logged_before_written Catalog.sound_oneSlot make_onePage
    LogMedium.holds_empty nofun hw (.complete ⟨1⟩ true)).2 x hx ⟨1⟩ (by rw [hpage])
  have hbehind := (hcommit ⟨1⟩ rfl).2 rfl
  rw [hpage] at hbehind
  exact ⟨x, hx, by rw [hpage], hbehind⟩

end World

end PagePool
