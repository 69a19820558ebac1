import PagePool.Proofs.Pool.Logging

namespace PagePool

namespace Journal

/-- The journal takes the first `k` records and fails with `e` at what comes next: at the record
after them, or, if there is none, at the force. -/
def StopsAt (j : Journal) (rs : List LogRecord) (k : Nat) (e : Error) : Prop :=
  (∀ r ∈ rs.take k, j.refuses r = false) ∧
    match rs[k]? with
    | some r => j.append r = .error e
    | none => k = rs.length ∧ j.force = .error e

variable {j j' : Journal} {r : LogRecord} {rs : List LogRecord} {k : Nat} {e : Error}

theorem append_of_taken (h : j.refuses r = false) :
    j.append r = .ok { j with medium := j.medium.append r } := by
  rw [append, h]
  rfl

theorem append_of_refused (h : j.refuses r = true) :
    j.append r = .error (.logForceFailed r.kind.refusal) := by
  rw [append, h]
  rfl

/-- Whether an append or a force fails does not depend on what has been appended. -/
theorem append_eq_error (h : j.append r = .error e) (hj : j'.refuses = j.refuses) :
    j'.append r = .error e := by
  unfold append at h ⊢
  rw [hj]
  split at h
  · rename_i hr
    rw [if_pos hr]
    exact congrArg Except.error (Except.error.inj h)
  · contradiction

theorem force_eq_error (h : j.force = .error e) (hj : j'.forceFails = j.forceFails) :
    j'.force = .error e := by
  unfold force at h ⊢
  rw [hj]
  split at h
  · rename_i hf
    rw [if_pos hf]
    exact congrArg Except.error (Except.error.inj h)
  · contradiction

/-- Records that are not refused are appended, and then it is the turn of the others. -/
theorem appendAll_append (h : ∀ r ∈ rs, j.refuses r = false) (rest : List LogRecord) :
    j.appendAll (rs ++ rest) =
      ({ j with medium := rs.foldl LogMedium.append j.medium } : Journal).appendAll rest := by
  induction rs generalizing j with
  | nil => rfl
  | cons r rs ih =>
    obtain ⟨hr, hrs⟩ := List.forall_mem_cons.1 h
    rw [List.cons_append, appendAll, append_of_taken hr]
    exact ih hrs

/-- A journal that stops has appended what it took before, and has forced nothing. -/
theorem log_of_stopsAt (h : j.StopsAt rs k e) :
    j.log rs = (.error e, { j with medium := (rs.take k).foldl LogMedium.append j.medium }) := by
  obtain ⟨htaken, hstop⟩ := h
  cases hk : rs[k]? with
  | some r =>
    rw [hk] at hstop
    have happend : ({ j with medium := (rs.take k).foldl LogMedium.append j.medium } :
        Journal).append r = .error e := append_eq_error hstop rfl
    obtain ⟨hlt, hget⟩ := List.getElem?_eq_some_iff.1 hk
    have hsplit : rs.take k ++ r :: rs.drop (k + 1) = rs := by
      rw [← hget, ← List.drop_eq_getElem_cons hlt, List.take_append_drop]
    have hall := appendAll_append htaken (r :: rs.drop (k + 1))
    rw [hsplit, appendAll, happend] at hall
    rw [log, hall]
  | none =>
    rw [hk] at hstop
    obtain ⟨rfl, hforce⟩ := hstop
    rw [List.take_length] at htaken ⊢
    have hall := appendAll_append htaken []
    rw [List.append_nil, appendAll] at hall
    have hstopped : ({ j with medium := rs.foldl LogMedium.append j.medium } :
        Journal).force = .error e := force_eq_error hforce rfl
    simp only [log, hall, hstopped]

/-- Logging fails only by stopping somewhere. -/
theorem exists_stopsAt (h : (j.log rs).1 = .error e) : ∃ k, j.StopsAt rs k e := by
  induction rs generalizing j with
  | nil =>
    refine ⟨0, fun _ hr => absurd hr List.not_mem_nil, rfl, ?_⟩
    simp only [log, appendAll] at h
    cases hf : j.force with
    | error e' =>
      simp only [hf] at h
      rw [Except.error.inj h]
    | ok j' =>
      simp only [hf] at h
      contradiction
  | cons r rs ih =>
    cases hr : j.refuses r with
    | true =>
      refine ⟨0, fun _ hr => absurd hr List.not_mem_nil, ?_⟩
      simp only [log, appendAll, append_of_refused hr] at h
      exact (append_of_refused hr).trans (congrArg Except.error (Except.error.inj h))
    | false =>
      have hrest : ({ j with medium := j.medium.append r } : Journal).log rs = j.log (r :: rs) := by
        simp only [log, appendAll, append_of_taken hr]
      obtain ⟨k, htaken, hstop⟩ := ih (hrest ▸ h)
      refine ⟨k + 1, ?_, ?_⟩
      · rw [List.take_succ_cons]
        exact List.forall_mem_cons.2 ⟨hr, htaken⟩
      · rw [List.getElem?_cons_succ]
        cases hk : rs[k]? with
        | some r' =>
          simp only [hk] at hstop
          exact append_eq_error hstop rfl
        | none =>
          simp only [hk] at hstop
          exact ⟨congrArg (· + 1) hstop.1, force_eq_error hstop.2 rfl⟩

end Journal

namespace Pool

variable {p : Pool} {t : TransactionId} {k : Nat} {e : Error} {j : Journal}

/-- Before its pages are written a commit is stopped at one of its records or at the force, or the
log has all of them for good. -/
theorem stops_or_forced (p : Pool) (t : TransactionId) :
    (∃ k e, p.journal.StopsAt (p.commitRecords t) k e) ∨ (p.logCommit t).1 = .ok () := by
  rw [logCommit_eq_log]
  cases hlog : (p.journal.log (p.commitRecords t)).1 with
  | error e =>
    obtain ⟨k, hstops⟩ := Journal.exists_stopsAt hlog
    exact .inl ⟨k, e, hstops⟩
  | ok u => exact .inr rfl

/-! Rolling back does not look at the journal. -/

theorem rollBack_withJournal (p : Pool) (j : Journal) (page : Page) :
    { p with journal := j : Pool }.rollBack page =
      ((p.rollBack page).1, { (p.rollBack page).2 with journal := j }) := by
  unfold rollBack
  simp only
  split
  · cases p.catalog.writePage page.beforeImage <;> rfl
  · rfl

theorem forEachPage_withJournal {handle : Pool → Page → Except Error Unit × Pool}
    (hstep : ∀ p page, handle { p with journal := j } page =
      ((handle p page).1, { (handle p page).2 with journal := j })) (p : Pool) (pages : List Page) :
    forEachPage handle { p with journal := j } pages =
      ((forEachPage handle p pages).1, { (forEachPage handle p pages).2 with journal := j }) := by
  induction pages generalizing p with
  | nil => rfl
  | cons page pages ih =>
    simp only [forEachPage, hstep, ih]

/-- Of the journal an abort needs to know only whether it refuses the abort's own record. -/
theorem abort_withJournal (hj : j.refuses (.abort t) = p.journal.refuses (.abort t)) :
    ∃ journal, ({ p with journal := j } : Pool).abort t =
      ((p.abort t).1, { (p.abort t).2 with journal }) := by
  by_cases ht : p.isActive t = true
  · have hactive : ({ p with journal := j } : Pool).isActive t = true := ht
    have hjournal := journal_rollBack_all p (p.dirtiedBy t)
    have hrolled := forEachPage_withJournal (fun k => rollBack_withJournal k j) p (p.dirtiedBy t)
    rw [abort, if_pos hactive, abort, if_pos ht]
    rw [show ({ p with journal := j } : Pool).dirtiedBy t = p.dirtiedBy t from rfl, hrolled]
    rcases hall : forEachPage rollBack p (p.dirtiedBy t) with ⟨restored, p₁⟩
    have hsame : p₁.journal = p.journal := by rwa [hall] at hjournal
    simp only [hsame]
    cases hr : p.journal.refuses (.abort t) with
    | true =>
      simp only [Journal.append_of_refused hr, Journal.append_of_refused (hj.trans hr)]
      exact ⟨j, rfl⟩
    | false =>
      simp only [Journal.append_of_taken hr, Journal.append_of_taken (hj.trans hr)]
      exact ⟨_, rfl⟩
  · have hinactive : ¬({ p with journal := j } : Pool).isActive t = true := ht
    rw [abort, if_neg hinactive, abort, if_neg ht]
    exact ⟨j, rfl⟩

/-- The pool once its journal has been told to fail in other ways. -/
def withLogFaults (p : Pool) (refuses : LogRecord → Bool) (forceFails : Bool) : Pool :=
  { p with journal := { p.journal with refuses, forceFails } }

/-- Until its log is forced a commit can only be stopped, at one of its records or at the force. Then it
returns that failure and has done nothing but append what the log took. An abort after it, whether the
log then fails or not, returns what it would have returned without the commit, and leaves the same pool
but for the log. -/
theorem failed_commit_changes_log_only (p : Pool) (t : TransactionId) :
    ((∃ k e, p.journal.StopsAt (p.commitRecords t) k e) ∨ (p.logCommit t).1 = .ok ()) ∧
    ∀ k e, p.journal.StopsAt (p.commitRecords t) k e →
      p.complete t true = (.error e, { p with
        journal.medium :=
          ((p.commitRecords t).take k).foldl LogMedium.append p.journal.medium }) ∧
      ∀ refuses forceFails, ∃ journal,
        ((p.complete t true).2.withLogFaults refuses forceFails).complete t false =
          (((p.withLogFaults refuses forceFails).complete t false).1,
            { ((p.withLogFaults refuses forceFails).complete t false).2 with journal }) := by
  refine ⟨stops_or_forced p t, fun k e h => ?_⟩
  have hlog : p.logCommit t = (.error e, { p with
      journal.medium :=
        ((p.commitRecords t).take k).foldl LogMedium.append p.journal.medium }) := by
    rw [logCommit_eq_log, Journal.log_of_stopsAt h]
  have hcommit : p.complete t true = (.error e, { p with
      journal.medium :=
        ((p.commitRecords t).take k).foldl LogMedium.append p.journal.medium }) := by
    simp only [complete, if_true, commit, hlog]
  refine ⟨hcommit, fun refuses forceFails => ?_⟩
  rw [hcommit]
  exact abort_withJournal (p := p.withLogFaults refuses forceFails) rfl

end Pool

namespace World

/-- A transaction fills two pages of its own. -/
def fillTwoPages : List Action :=
  [.begin, .call 0 (.insert ⟨1⟩ ⟨1⟩ [7]), .turn 0, .call 1 (.insert ⟨1⟩ ⟨1⟩ [8]), .turn 0, .turn 0]

/-- The pool with both pages changed, over a log that refuses the change to the second one. -/
def secondRefused : Pool :=
  ((ofPool noPages).performAll (fillTwoPages ++
    [.failLog (fun r => r = .update ⟨1⟩ ⟨⟨1⟩, 1⟩ [0, 0] [1, 8]) false])).pool

theorem second_change_refused :
    secondRefused.dirtyPages ⟨1⟩ = [⟨⟨1⟩, 0⟩, ⟨⟨1⟩, 1⟩] ∧
    secondRefused.complete ⟨1⟩ true =
      (.error (.logForceFailed "injected log_write failure"), { secondRefused with
        journal.medium :=
          secondRefused.journal.medium.append (.update ⟨1⟩ ⟨⟨1⟩, 0⟩ [0, 0] [1, 7]) }) ∧
    ∃ journal, ((secondRefused.complete ⟨1⟩ true).2.complete ⟨1⟩ false).2 =
      { (secondRefused.complete ⟨1⟩ false).2 with journal } := by
  have hrecords : secondRefused.commitRecords ⟨1⟩ =
      [.update ⟨1⟩ ⟨⟨1⟩, 0⟩ [0, 0] [1, 7], .update ⟨1⟩ ⟨⟨1⟩, 1⟩ [0, 0] [1, 8], .commit ⟨1⟩] := by
    decide +kernel
  have hstops : secondRefused.journal.StopsAt (secondRefused.commitRecords ⟨1⟩) 1
      (.logForceFailed "injected log_write failure") := by
    rw [hrecords]
    refine ⟨by decide +kernel, ?_⟩
    exact Journal.append_of_refused (r := .update ⟨1⟩ ⟨⟨1⟩, 1⟩ [0, 0] [1, 8]) (by decide +kernel)
  obtain ⟨-, hfails⟩ := Pool.failed_commit_changes_log_only secondRefused ⟨1⟩
  obtain ⟨hcommit, habort⟩ := hfails _ _ hstops
  rw [hrecords] at hcommit
  refine ⟨by decide +kernel, hcommit, ?_⟩
  obtain ⟨journal, hsame⟩ :=
    habort secondRefused.journal.refuses secondRefused.journal.forceFails
  rw [hcommit] at hsame ⊢
  exact ⟨journal, congrArg Prod.snd hsame⟩

end World

end PagePool
