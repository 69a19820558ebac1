import PagePool.Proofs.Pool.FailedCommit
import PagePool.Proofs.Pool.Keeping
import PagePool.Proofs.Pool.Locking

namespace PagePool

namespace Pool

/-- What attempts at several pages report: the failure of the least page that has failed, or, if
none has, what came after them. -/
inductive Reports (pages : List Page) (failure? : Page → Option Error)
    (otherwise : Except Error Unit) : Except Error Unit → Prop where
  | clean : (∀ page ∈ pages, failure? page = none) → Reports pages failure? otherwise otherwise
  | failed {page e} : page ∈ pages → failure? page = some e →
      (∀ other ∈ pages, failure? other ≠ none → Key.rank page.id ≤ Key.rank other.id) →
      Reports pages failure? otherwise (.error e)

/-- A transaction has ended: it is inactive and has no lock, and nobody else has lost or gained
one. -/
structure Ends (t : TransactionId) (p p' : Pool) : Prop where
  isActive_eq : ∀ u, p'.isActive u = if u = t then false else p.isActive u
  modeOf_eq : ∀ u q, p'.locks.modeOf u q = if u = t then none else p.locks.modeOf u q

/-- What a completion comes to, also if it fails at some pages: each page that its transaction has
changed stands as it should, every other page stands as it did, the transaction has ended, and the
result reports the pages. -/
structure Outcome (t : TransactionId) (failure? : Page → Option Error) (stands : Page → Standing)
    (otherwise : Except Error Unit) (p : Pool) (o : Except Error Unit × Pool) : Prop where
  changed : ∀ page ∈ p.dirtiedBy t, o.2.standing page.id = stands page
  others : ∀ q, q ∉ p.dirtyPages t → o.2.standing q = p.standing q
  ends : Ends t p o.2
  reports : Reports (p.dirtiedBy t) failure? otherwise o.1

variable {p p' : Pool} {t : TransactionId} {pages : List Page} {failure? : Page → Option Error}
  {otherwise result : Except Error Unit} {stands : Pool → Page → Standing}
  {failures : Pool → Page → Option Error}

/-- The first failure of pages in ascending order is that of the least page. -/
theorem reports_findSome? (otherwise : Except Error Unit)
    (hascending : (pages.map Page.id).Pairwise fun a b => Key.rank a < Key.rank b) :
    Reports pages failure? otherwise
      (report (pages.findSome? failure?) >>= fun _ => otherwise) := by
  cases hfirst : pages.findSome? failure? with
  | none => exact .clean (List.findSome?_eq_none_iff.1 hfirst)
  | some e =>
    obtain ⟨before, page, after, rfl, hpage, hnone⟩ := List.findSome?_eq_some_iff.1 hfirst
    rw [List.map_append, List.map_cons, List.pairwise_append, List.pairwise_cons] at hascending
    obtain ⟨-, ⟨hleast, -⟩, -⟩ := hascending
    refine .failed (List.mem_append_right _ List.mem_cons_self) hpage fun other hother hne => ?_
    rcases List.mem_append.1 hother with hother | hother
    · exact absurd (hnone other hother) hne
    · rcases List.mem_cons.1 hother with rfl | hother
      · exact Nat.le_refl _
      · exact Nat.le_of_lt (hleast _ (List.mem_map_of_mem hother))

theorem Reports.ok_iff (h : Reports pages failure? (.ok ()) result) :
    result = .ok () ↔ ∀ page ∈ pages, failure? page = none := by
  cases h with
  | clean hnone => exact iff_of_true rfl hnone
  | failed hmem he _ =>
    refine iff_of_false nofun fun hnone => ?_
    rw [hnone _ hmem] at he
    contradiction

namespace Ends

theorem of_releaseAll (hv : p.locks.Valid) (hactive : p'.active = p.active.erase t)
    (hlocks : p'.locks = p.locks.releaseAll t) : Ends t p p' where
  isActive_eq u := by
    rw [isActive, hactive]
    exact OrdSet.contains_erase _ _ _
  modeOf_eq u q := by
    rw [hlocks]
    exact LockTable.modeOf_releaseAll hv t u q

theorem commit (hv : p.locks.Valid) (hforced : (p.logCommit t).1 = .ok ()) :
    Ends t p (p.commit t).2 := by
  rcases commit_cases p t with ⟨e, journal, hfailed, -⟩ | ⟨journal, stats, -, -, hpool⟩
  · rw [hforced] at hfailed
    contradiction
  · obtain ⟨-, hlocks, -⟩ := forEachPage_keeps (p := { p with journal }) writeCommitted_keeps
      (p.dirtiedBy t)
    have hactive := active_writeCommitted_all { p with journal } (p.dirtiedBy t)
    rw [hpool]
    exact of_releaseAll hv (congrArg (OrdSet.erase · t) hactive)
      (congrArg (LockTable.releaseAll · t) hlocks)

theorem abort (hv : p.locks.Valid) (ht : p.isActive t = true) : Ends t p (p.abort t).2 := by
  rcases abort_cases p t with ⟨-, journal, stats, hpool⟩ | ⟨hinactive, -⟩
  · obtain ⟨-, hlocks, -⟩ := forEachPage_keeps (p := p) rollBack_keeps (p.dirtiedBy t)
    have hactive := active_rollBack_all p (p.dirtiedBy t)
    rw [hpool]
    exact of_releaseAll hv (congrArg (OrdSet.erase · t) hactive)
      (congrArg (LockTable.releaseAll · t) hlocks)
  · exact absurd ht hinactive

/-- There is nothing left to abort. -/
theorem abort_again (h : Ends t p p') : p'.complete t false = (.ok (), p'.releaseAll t) := by
  have hinactive : p'.isActive t = false := (h.isActive_eq t).trans (if_pos rfl)
  simp only [complete, Pool.abort, hinactive, Bool.false_eq_true, if_false]

end Ends

theorem Handled.outcome {o : Except Error Unit × Pool}
    (h : Handled (p.dirtiedBy t) failures stands p o) (hr : p.Resident) (hends : Ends t p o.2)
    (hresult : result = o.1 >>= fun _ => otherwise) :
    Outcome t (failures p) (stands p) otherwise p (result, o.2) where
  changed := h.standing
  others := h.others
  ends := hends
  reports := by
    rw [hresult, h.result]
    exact reports_findSome? otherwise (dirtyPages_ascending hr t)

theorem outcome_commit (h : p.Intact) (hv : p.locks.Valid)
    (hforced : (p.logCommit t).1 = .ok ()) :
    Outcome t p.catalog.refusal? p.committedStanding (.ok ()) p (p.commit t) := by
  have hresult : (p.commit t).1 = (p.commit t).1 >>= fun _ => .ok () := by
    cases (p.commit t).1 <;> rfl
  exact (handled_commit h hforced).outcome h.resident (.commit hv hforced) hresult

theorem outcome_abort (h : p.Intact) (hv : p.locks.Valid) (ht : p.isActive t = true) :
    Outcome t p.rollBackFailure? p.rolledBackStanding
      ((p.journal.append (.abort t)).map fun _ => ()) p (p.abort t) :=
  (handled_abort h t).outcome h.resident (.abort hv ht) (result_abort ht)

/-- An abort writes back what the store may not have, and nothing else. -/
theorem pages_rollBackWrites (h : p.Intact) (hnodup : (pages.map Page.id).Nodup)
    (hpages : ∀ page ∈ pages, p.pages.get? page.id = some page) :
    (writesEach rollBack rollBackWrites p pages).map StoreWrite.page =
      (pages.filter fun page => p.unsynced.contains page.id).map Page.beforeImage := by
  induction pages generalizing p with
  | nil => rfl
  | cons page pages ih =>
    rw [List.map_cons, List.nodup_cons] at hnodup
    obtain ⟨hq, hrest⟩ := List.forall_mem_cons.1 hpages
    have hsame := handles_rollBack.sameAt_of_mem h hq hnodup.1
    have hlater := ih (handles_rollBack.intact h hq) hnodup.2 fun other hother =>
      (hsame other hother).cached.trans (hrest other hother)
    have hfilter : (pages.filter fun other => (p.rollBack page).2.unsynced.contains other.id) =
        pages.filter fun other => p.unsynced.contains other.id :=
      List.filter_congr fun other hother => (hsame other hother).unsynced
    rw [writesEach, List.map_append, hlater, hfilter, rollBackWrites, List.filter_cons]
    split <;> rfl

/-- After a commit that has been logged, the log has its records last, and all are durable. -/
theorem holds_commit {rs : List LogRecord} {n : Nat} (h : p.Intact) (hr : p.Records)
    (hrs : p.journal.medium.Holds rs n) (hforced : (p.logCommit t).1 = .ok ()) :
    (p.commit t).2.journal.medium.Holds (rs ++ (p.commitRecords t).filter p.journal.medium.keeps)
      (rs ++ (p.commitRecords t).filter p.journal.medium.keeps).length := by
  rw [logCommit_eq_log] at hforced
  rw [journal_commit, logCommit_eq_log]
  exact Journal.holds_of_log hrs (takes_commitRecords h hr t) hforced

end Pool

namespace World

variable {w : World} {p : Pool} {capacity : Nat} {catalog : Catalog} {journal : Journal}
  {rule : World → Action → Prop} {t : TransactionId}

/-- Once its log has been forced a commit is final, whichever of its pages the store then refuses.
Every page that the transaction has changed is committed in the cache; the store has its bytes, or
the page must stay. The transaction has ended, and to abort it after that does nothing. The result
is the failure of the least page. Each change is in the log, in ascending order of the pages, and
after them the commit, all of them durable as far as the log keeps such records. A page that the
store has refused stays cached with its committed bytes until it is written or discarded. -/
theorem commit_final_once_logged (hs : catalog.Sound)
    (hp : Pool.make capacity catalog journal = .ok p) (hw : Reaches rule (ofPool p) w)
    (hforced : (w.pool.logCommit t).1 = .ok ()) :
    Pool.Outcome t w.pool.catalog.refusal? w.pool.committedStanding (.ok ()) w.pool
      (w.pool.complete t true) ∧
    ((w.pool.complete t true).1 = .ok () ↔
      ∀ page ∈ w.pool.dirtiedBy t, w.pool.catalog.refusal? page = none) ∧
    (w.pool.complete t true).2.complete t false =
      (.ok (), (w.pool.complete t true).2.releaseAll t) ∧
    ((w.pool.dirtyPages t).Pairwise fun q r => Key.rank q < Key.rank r) ∧
    (∀ given n, journal.medium.Holds given n →
      (∀ log, journal.medium = .file log → catalog.pageSize < 2 ^ 32) →
      ∃ before n', w.pool.journal.medium.Holds before n' ∧
        (w.pool.complete t true).2.journal.medium.durableRecords = .ok (before ++
          ((w.pool.dirtiedBy t).map
              (fun page => LogRecord.update t page.id page.before page.data) ++
            [LogRecord.commit t]).filter journal.medium.keeps)) ∧
    ∀ page ∈ w.pool.dirtiedBy t, w.pool.catalog.refusal? page ≠ none → ∀ w' d,
      Tallies (noteCommitted page.id) (Unwritten page.id) (w.perform (.complete t true)) page.data
        w' d → w'.pool.Keeps page.id d := by
  have hsturdy := hw.sturdy (sturdy_ofPool hs hp)
  obtain ⟨hbounded, -⟩ := hw.bounded (Pool.bounded_make hp).1
  have houtcome := Pool.outcome_commit hsturdy.pool (hw.valid_locks (valid_locks_ofPool hp)) hforced
  refine ⟨houtcome, houtcome.reports.ok_iff, houtcome.ends.abort_again,
    Pool.dirtyPages_ascending hsturdy.pool.resident t, fun given n hlog hfile => ?_,
    fun page hpage hrefused w' d hw' => ?_⟩
  · obtain ⟨hintact, hgains⟩ := hw.intact (intact_ofPool hs hp hfile)
    rw [journal_ofPool hp] at hgains
    obtain ⟨new, n', -, -, hrs⟩ := hgains.holds hlog
    have hdurable := (Pool.holds_commit hintact.pool hintact.records hrs hforced).durableRecords
    rw [List.take_length, hgains.keeps_eq] at hdurable
    exact ⟨_, n', hrs, hdurable⟩
  · obtain ⟨e, he⟩ := Option.ne_none_iff_exists'.1 hrefused
    have hstanding := houtcome.changed page hpage
    simp only [Pool.committedStanding, he] at hstanding
    exact hw'.keeps (.of_standing hstanding) (hsturdy.perform _) (bounded_perform hbounded _).1

/-- Two pages have been filled, and the store has come to refuse the second one. -/
def beforeHalfCommit : World :=
  (ofPool noPages).performAll (fillTwoPages ++ [.failStore ⟨1⟩ ⟨[], [1], false⟩])

/-- Neither step gets the page into the store. -/
def abortThenFlush : List Action := [.complete ⟨1⟩ false, .flush ⟨⟨1⟩, 1⟩]

theorem committed_page_kept :
    (beforeHalfCommit.pool.complete ⟨1⟩ true).2.standing ⟨⟨1⟩, 0⟩ =
      ⟨some (.ofStored ⟨⟨1⟩, 0⟩ [1, 7]), false, true, some [1, 7]⟩ ∧
    (beforeHalfCommit.pool.complete ⟨1⟩ true).2.standing ⟨⟨1⟩, 1⟩ =
      ⟨some (.ofStored ⟨⟨1⟩, 1⟩ [1, 8]), true, false, some [0, 0]⟩ ∧
    (beforeHalfCommit.pool.complete ⟨1⟩ true).1 ≠ .ok () ∧
    (beforeHalfCommit.pool.complete ⟨1⟩ true).2.journal.medium.durableRecords =
      .ok [.update ⟨1⟩ ⟨⟨1⟩, 0⟩ [0, 0] [1, 7], .update ⟨1⟩ ⟨⟨1⟩, 1⟩ [0, 0] [1, 8], .commit ⟨1⟩] ∧
    ((beforeHalfCommit.perform (.complete ⟨1⟩ true)).performAll abortThenFlush).pool.Keeps
      ⟨⟨1⟩, 1⟩ [1, 8] := by
  have hw : Reaches Orderly (ofPool noPages) beforeHalfCommit := Reaches.refl.performAll (by decide)
  obtain ⟨houtcome, hok, -, -, hlog, hkeeps⟩ := commit_final_once_logged (t := ⟨1⟩)
    Catalog.sound_noPages make_noPages hw (by decide +kernel)
  have hfirst : ⟨⟨⟨1⟩, 0⟩, [1, 7], [0, 0], some ⟨1⟩⟩ ∈ beforeHalfCommit.pool.dirtiedBy ⟨1⟩ := by
    decide +kernel
  have hsecond : ⟨⟨⟨1⟩, 1⟩, [1, 8], [0, 0], some ⟨1⟩⟩ ∈ beforeHalfCommit.pool.dirtiedBy ⟨1⟩ := by
    decide +kernel
  have hrefused : beforeHalfCommit.pool.catalog.refusal? ⟨⟨⟨1⟩, 1⟩, [1, 8], [0, 0], some ⟨1⟩⟩ ≠
      none := by decide +kernel
  refine ⟨(houtcome.changed _ hfirst).trans (by decide +kernel),
    (houtcome.changed _ hsecond).trans (by decide +kernel),
    fun h => hrefused (hok.1 h _ hsecond), ?_, ?_⟩
  · obtain ⟨before, n, ⟨hbefore, -⟩, hdurable⟩ := hlog _ _ LogMedium.holds_empty nofun
    have hempty : before = [] := by
      have hrecords := congrArg MemoryLog.records hbefore
      exact hrecords.symm.trans (by decide +kernel)
    rw [hdurable, hempty]
    decide +kernel
  · have hunwritten : Follows (Unwritten ⟨⟨1⟩, 1⟩) (beforeHalfCommit.perform (.complete ⟨1⟩ true))
        abortThenFlush :=
      ⟨⟨nofun, by decide +kernel⟩, ⟨nofun, by decide +kernel⟩, trivial⟩
    exact hkeeps _ hsecond hrefused _ _ (Tallies.refl.performAll hunwritten)

/-- An abort always completes, whichever of its writes the store refuses, and also if the log does
not take its record. Every page that the transaction has changed is in the cache as it was before
the change. Only those are written that the store may have the changed bytes of; such a page is
stored as it was before, or it must stay. The transaction has ended. The result is the failure of
the least page, or else that of the log. A page that the store has refused stays cached with its
committed bytes until it is written or discarded, and a flush that succeeds stores them. -/
theorem abort_always_completes (hs : catalog.Sound)
    (hp : Pool.make capacity catalog journal = .ok p) (hw : Reaches rule (ofPool p) w)
    (ht : w.pool.isActive t = true) :
    Pool.Outcome t w.pool.rollBackFailure? w.pool.rolledBackStanding
      ((w.pool.journal.append (.abort t)).map fun _ => ()) w.pool (w.pool.complete t false) ∧
    (w.writes (.complete t false)).map StoreWrite.page =
      ((w.pool.dirtiedBy t).filter fun page => w.pool.unsynced.contains page.id).map
        Page.beforeImage ∧
    ∀ page ∈ w.pool.dirtiedBy t, w.pool.rollBackFailure? page ≠ none → ∀ w' d,
      Tallies (noteCommitted page.id) (Unwritten page.id) (w.perform (.complete t false))
        page.before w' d →
      w'.pool.Keeps page.id d ∧ w'.pool.recency.isEvictable page.id = false ∧
        ((∀ cached, w'.pool.pages.get? page.id = some cached → cached.dirtiedBy = none) →
          (w'.pool.flush page.id).1 = .ok () →
          (w'.pool.flush page.id).2.catalog.stored? page.id = some d) := by
  have hsturdy := hw.sturdy (sturdy_ofPool hs hp)
  obtain ⟨hbounded, -⟩ := hw.bounded (Pool.bounded_make hp).1
  have houtcome := Pool.outcome_abort hsturdy.pool (hw.valid_locks (valid_locks_ofPool hp)) ht
  refine ⟨houtcome, ?_, fun page hpage hrefused w' d hw' => ?_⟩
  · have hwrites : w.writes (.complete t false) =
        Pool.writesEach Pool.rollBack Pool.rollBackWrites w.pool (w.pool.dirtiedBy t) := if_pos ht
    rw [hwrites]
    exact Pool.pages_rollBackWrites hsturdy.pool (Pool.nodup_dirtyPages hsturdy.pool.resident t)
      fun page hpage => ((Pool.mem_dirtiedBy hsturdy.pool.resident).1 hpage).1
  · have hstanding := houtcome.changed page hpage
    obtain ⟨e, he⟩ := Option.ne_none_iff_exists'.1 hrefused
    simp only [Pool.rollBackFailure?, Option.ite_none_right_eq_some] at he
    simp only [Pool.rolledBackStanding, he.1, he.2, if_true] at hstanding
    have hsturdy' := hw'.reaches.sturdy (hsturdy.perform (.complete t false))
    have hkeeps := hw'.keeps (.of_standing hstanding) (hsturdy.perform _)
      (bounded_perform hbounded _).1
    exact ⟨hkeeps, hkeeps.not_evictable hsturdy'.pool.resident,
      hkeeps.stored_of_flush hsturdy'.pool⟩

/-- Two pages have been filled and the second one flushed. Then the store has come to refuse it, and
the log to refuse the abort. -/
def beforeHalfAbort : World :=
  (ofPool noPages).performAll (fillTwoPages ++ [.flush ⟨⟨1⟩, 1⟩,
    .failStore ⟨1⟩ ⟨[], [1], false⟩, .failLog (fun r => r = .abort ⟨1⟩) false])

theorem restored_page_kept :
    (beforeHalfAbort.pool.complete ⟨1⟩ false).2.standing ⟨⟨1⟩, 0⟩ =
      ⟨some (.ofStored ⟨⟨1⟩, 0⟩ [0, 0]), false, true, some [0, 0]⟩ ∧
    (beforeHalfAbort.pool.complete ⟨1⟩ false).2.standing ⟨⟨1⟩, 1⟩ =
      ⟨some (.ofStored ⟨⟨1⟩, 1⟩ [0, 0]), true, false, some [1, 8]⟩ ∧
    (((beforeHalfAbort.perform (.complete ⟨1⟩ false)).perform
      (.failStore ⟨1⟩ .none)).pool.flush ⟨⟨1⟩, 1⟩).2.catalog.stored? ⟨⟨1⟩, 1⟩ = some [0, 0] := by
  have hw : Reaches Orderly (ofPool noPages) beforeHalfAbort := Reaches.refl.performAll (by decide)
  obtain ⟨houtcome, -, hlater⟩ := abort_always_completes (t := ⟨1⟩) Catalog.sound_noPages
    make_noPages hw (by decide +kernel)
  have hfirst : ⟨⟨⟨1⟩, 0⟩, [1, 7], [0, 0], some ⟨1⟩⟩ ∈ beforeHalfAbort.pool.dirtiedBy ⟨1⟩ := by
    decide +kernel
  have hsecond : ⟨⟨⟨1⟩, 1⟩, [1, 8], [0, 0], some ⟨1⟩⟩ ∈ beforeHalfAbort.pool.dirtiedBy ⟨1⟩ := by
    decide +kernel
  refine ⟨(houtcome.changed _ hfirst).trans (by decide +kernel),
    (houtcome.changed _ hsecond).trans (by decide +kernel), ?_⟩
  have hrepaired : Unwritten ⟨⟨1⟩, 1⟩ (beforeHalfAbort.perform (.complete ⟨1⟩ false))
      (.failStore ⟨1⟩ .none) := ⟨nofun, nofun⟩
  obtain ⟨-, -, hflush⟩ := hlater _ hsecond (by decide +kernel) _ _ (Tallies.refl.step hrepaired)
  refine hflush (fun cached hcached => ?_) (by decide +kernel)
  have hpage : ((beforeHalfAbort.perform (.complete ⟨1⟩ false)).perform
      (.failStore ⟨1⟩ .none)).pool.pages.get? ⟨⟨1⟩, 1⟩ = some (.ofStored ⟨⟨1⟩, 1⟩ [0, 0]) := by
    decide +kernel
  rw [← Option.some.inj (hpage.symm.trans hcached)]
  rfl

end World

end PagePool
