import PagePool.Proofs.Pool.Logging

namespace PagePool

/-- A commit that is asked for, and the world as it is then. -/
structure CommitCall where
  world : World
  tid : TransactionId

namespace CommitCall

/-- The log takes every change and the commit record itself. -/
def Taken (c : CommitCall) : Prop :=
  (c.world.pool.journal.appendAll (c.world.pool.commitRecords c.tid)).1 = .ok ()

/-- The log takes all records and forces them. -/
def Forced (c : CommitCall) : Prop := (c.world.pool.logCommit c.tid).1 = .ok ()

/-- The pages that the transaction has changed are committed afterwards. -/
def Installs (c : CommitCall) : Prop :=
  ∀ q page, c.world.pool.pages.get? q = some page → page.dirtiedBy = some c.tid →
    (c.world.perform (.complete c.tid true)).pool.pages.get? q = some page.committed

/-- The commit is refused, and the pool is as it was but for its log. -/
def Fails (c : CommitCall) : Prop :=
  ∃ e journal, c.world.pool.complete c.tid true = (.error e, { c.world.pool with journal })

instance (c : CommitCall) : Decidable c.Forced :=
  inferInstanceAs (Decidable (_ = Except.ok ()))

end CommitCall

namespace Pool

variable {p : Pool} {q : PageId} {pages : List Page} {page : Page}

theorem get?_writeCommitted_all_of_not_mem (hq : q ∉ pages.map Page.id) :
    (forEachPage writeCommitted p pages).2.pages.get? q = p.pages.get? q := by
  induction pages generalizing p with
  | nil => rfl
  | cons other pages ih =>
    rw [List.map_cons, List.mem_cons, not_or] at hq
    have hlater : (forEachPage writeCommitted p (other :: pages)).2.pages.get? q =
        (p.writeCommitted other).2.pages.get? q := ih hq.2
    rw [hlater, get?_writeCommitted, if_neg hq.1]

theorem get?_writeCommitted_all (hnodup : (pages.map Page.id).Nodup) (hpage : page ∈ pages) :
    (forEachPage writeCommitted p pages).2.pages.get? page.id = some page.committed := by
  induction pages generalizing p with
  | nil => contradiction
  | cons other pages ih =>
    rw [List.map_cons, List.nodup_cons] at hnodup
    rcases List.mem_cons.1 hpage with rfl | hpage
    · have hlater : (forEachPage writeCommitted p (page :: pages)).2.pages.get? page.id =
          (p.writeCommitted page).2.pages.get? page.id :=
        get?_writeCommitted_all_of_not_mem hnodup.1
      rw [hlater, get?_writeCommitted, if_pos rfl]
    · exact ih hnodup.2 hpage

end Pool

namespace CommitCall

variable {c : CommitCall}

theorem installs_of_forced (h : c.world.pool.Resident) (hforced : c.Forced) : c.Installs := by
  intro q page hq ht
  have hid := h.id_eq hq
  subst hid
  rcases Pool.commit_cases c.world.pool c.tid with
    ⟨e, journal, hlog, -⟩ | ⟨journal, stats, -, -, hcommit⟩
  · rw [hforced] at hlog
    contradiction
  · have hmem : page ∈ c.world.pool.dirtiedBy c.tid := (Pool.mem_dirtiedBy h).2 ⟨hq, ht⟩
    have hpages : (c.world.perform (.complete c.tid true)).pool.pages =
        (Pool.forEachPage Pool.writeCommitted { c.world.pool with journal }
          (c.world.pool.dirtiedBy c.tid)).2.pages := by
      have hsame := congrArg Pool.pages hcommit
      exact hsame
    rw [hpages]
    exact Pool.get?_writeCommitted_all (Pool.nodup_dirtyPages h c.tid) hmem

theorem fails_of_not_forced (h : ¬ c.Forced) : c.Fails := by
  rcases Pool.commit_cases c.world.pool c.tid with
    ⟨e, journal, -, hcommit⟩ | ⟨journal, stats, hlog, -, -⟩
  · exact ⟨e, journal, hcommit⟩
  · exact absurd hlog h

/-- If the log has taken the records, only a failing force stops a commit. -/
theorem Taken.forced_or_fails (h : c.Taken) (hresident : c.world.pool.Resident) :
    c.Forced ∧ c.Installs ∨ c.world.pool.journal.forceFails = true ∧ c.Fails := by
  by_cases hforced : c.Forced
  · exact .inl ⟨hforced, installs_of_forced hresident hforced⟩
  · refine .inr ⟨?_, fails_of_not_forced hforced⟩
    have hlogged : (c.world.pool.journal.log (c.world.pool.commitRecords c.tid)).1 ≠ .ok () := by
      unfold Forced at hforced
      rwa [Pool.logCommit_eq_log] at hforced
    rcases Journal.log_cases c.world.pool.journal (c.world.pool.commitRecords c.tid) with
      ⟨e, _, _, _, -, happend, -⟩ | ⟨-, ⟨e, hfails, -⟩ | ⟨-, hok⟩⟩
    · unfold Taken at h
      rw [h] at happend
      contradiction
    · exact hfails
    · rw [hok] at hlogged
      contradiction

end CommitCall

namespace World

variable {w : World} {p : Pool} {capacity : Nat} {catalog : Catalog} {journal : Journal}

/-- The commits that are asked for along a run. -/
def commitCalls (w : World) : List Action → List CommitCall
  | [] => []
  | a :: as =>
    let later := commitCalls (w.perform a) as
    match a with
    | .complete t true => ⟨w, t⟩ :: later
    | _ => later

theorem mem_commitCalls_cons {as : List Action} {c : CommitCall} {a : Action}
    (h : c ∈ (w.perform a).commitCalls as) : c ∈ w.commitCalls (a :: as) := by
  unfold commitCalls
  split
  · exact List.mem_cons_of_mem _ h
  · exact h

theorem Intact.commitCalls (h : w.Intact) {as : List Action} {c : CommitCall}
    (hc : c ∈ w.commitCalls as) : c.world.Intact := by
  induction as generalizing w with
  | nil => contradiction
  | cons a as ih =>
    have hlater := ih (h.perform a).1
    unfold World.commitCalls at hc
    split at hc
    · rcases List.mem_cons.1 hc with rfl | hc
      · exact h
      · exact hlater hc
    · exact hlater hc

/-- Along a run the journal gains no commit record but those of commits whose records it has all
taken. -/
theorem Intact.gains_performAll (h : w.Intact) (as : List Action) :
    Journal.Gains (fun r => ∀ t, r = .commit t → ∃ c ∈ w.commitCalls as, c.tid = t ∧ c.Taken)
      w.pool.journal (w.performAll as).pool.journal := by
  induction as generalizing w with
  | nil => exact .refl _
  | cons a as ih =>
    obtain ⟨hintact, hgains⟩ := h.perform a
    refine (hgains.imp ?_).trans ((ih hintact).imp ?_)
    · intro r hr t ht
      obtain ⟨rfl, htaken⟩ := hr t ht
      exact ⟨⟨w, t⟩, List.mem_cons_self, rfl, htaken⟩
    · intro r hr t ht
      obtain ⟨c, hc, hcommit⟩ := hr t ht
      exact ⟨c, mem_commitCalls_cons hc, hcommit⟩

/-- Whatever a run does, a commit record that it makes durable is that of a commit whose records the
log has all taken. That commit has been forced and has installed what its transaction had changed,
or its force has failed, and the commit with it: then it has changed the log only. -/
theorem durable_commits_taken {given : List LogRecord} {n : Nat} (hs : catalog.Sound)
    (hp : Pool.make capacity catalog journal = .ok p) (hlog : journal.medium.Holds given n)
    (hfile : ∀ log, journal.medium = .file log → catalog.pageSize < 2 ^ 32)
    (as : List Action) :
    ∃ log, ((ofPool p).performAll as).pool.journal.medium.durableRecords = .ok log ∧
      ∀ t, .commit t ∈ log → .commit t ∉ given →
        ∃ c ∈ (ofPool p).commitCalls as, c.tid = t ∧ c.Taken ∧
          (c.Forced ∧ c.Installs ∨ c.world.pool.journal.forceFails = true ∧ c.Fails) := by
  have hintact := intact_ofPool hs hp hfile
  have hgains := hintact.gains_performAll as
  rw [journal_ofPool hp] at hgains
  obtain ⟨new, n', -, hnew, hholds⟩ := hgains.holds hlog
  refine ⟨_, hholds.durableRecords, fun t ht hgiven => ?_⟩
  rcases List.mem_append.1 (List.mem_of_mem_take ht) with ht | ht
  · exact absurd ht hgiven
  · obtain ⟨c, hc, rfl, htaken⟩ := hnew _ ht t rfl
    exact ⟨c, hc, rfl, htaken, htaken.forced_or_fails (hintact.commitCalls hc).pool.resident⟩

/-- A transaction puts a tuple into a page and commits. -/
def insertThenCommit : List Action :=
  [.begin, .call 0 (.insert ⟨1⟩ ⟨1⟩ [7]), .turn 0, .complete ⟨1⟩ true]

theorem insert_committed :
    ∃ c ∈ (ofPool onePage).commitCalls insertThenCommit,
      c.tid = ⟨1⟩ ∧ c.Forced ∧ c.Installs := by
  obtain ⟨log, hlog, hcommits⟩ := durable_commits_taken Catalog.sound_oneSlot make_onePage
    LogMedium.holds_empty nofun insertThenCommit
  have hdurable :
      ((ofPool onePage).performAll insertThenCommit).pool.journal.medium.durableRecords =
        .ok [.update ⟨1⟩ ⟨⟨1⟩, 0⟩ [0, 0] [1, 7], .commit ⟨1⟩] := by decide +kernel
  have hforces : ∀ c ∈ (ofPool onePage).commitCalls insertThenCommit,
      c.world.pool.journal.forceFails = false := by decide +kernel
  obtain rfl := Except.ok.inj (hlog.symm.trans hdurable)
  obtain ⟨c, hc, htid, -, hforced | ⟨hfails, -⟩⟩ := hcommits ⟨1⟩ (by decide) nofun
  · exact ⟨c, hc, htid, hforced⟩
  · rw [hforces c hc] at hfails
    contradiction

/-- The force of a commit fails, its transaction is aborted, and another one commits. -/
def abortedCommit : List Action :=
  [.begin, .call 0 (.insert ⟨1⟩ ⟨1⟩ [7]), .turn 0, .failLog (fun _ => false) true,
    .complete ⟨1⟩ true, .failLog (fun _ => false) false, .complete ⟨1⟩ false, .begin,
    .complete ⟨2⟩ true]

/-- The first transaction has never committed, its page is as it was, and yet its commit record is
durable. -/
theorem aborted_commit_durable :
    Follows Orderly (ofPool onePage) abortedCommit ∧
    ((ofPool onePage).performAll abortedCommit).pool.journal.medium.durableRecords =
      .ok [.update ⟨1⟩ ⟨⟨1⟩, 0⟩ [0, 0] [1, 7], .commit ⟨1⟩, .abort ⟨1⟩, .commit ⟨2⟩] ∧
    (∀ c ∈ (ofPool onePage).commitCalls abortedCommit, c.tid = ⟨1⟩ → ¬ c.Forced) ∧
    ((ofPool onePage).performAll abortedCommit).pool.pages.get? ⟨⟨1⟩, 0⟩ =
      some ⟨⟨⟨1⟩, 0⟩, [0, 0], [0, 0], none⟩ := by
  refine ⟨by decide, ?_, ?_, ?_⟩
  · decide +kernel
  · decide +kernel
  · decide +kernel

end World

end PagePool
