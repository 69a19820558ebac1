import PagePool.Proofs.Log.Durable
import PagePool.Proofs.Pool.Intact

namespace PagePool

namespace LogMedium

theorem takes_commit (m : LogMedium) (t : TransactionId) : m.Takes (.commit t) := by
  cases m with
  | file log => exact LogRecord.short_commit t
  | _ => trivial

theorem takes_abort (m : LogMedium) (t : TransactionId) : m.Takes (.abort t) := by
  cases m with
  | file log => exact LogRecord.short_abort t
  | _ => trivial

end LogMedium

namespace Pool

/-- The journal can record the changes of pages of the store's size. -/
def Records (p : Pool) : Prop :=
  ∀ t page, Page.Whole page p.catalog.pageSize → p.journal.medium.Takes (updateRecord t page)

/-- A step that logs only records which meet a condition. -/
structure Logs (P : LogRecord → Prop) (p p' : Pool) : Prop where
  intact : p'.Intact
  gains : Journal.Gains P p.journal p'.journal
  layout_eq : p'.catalog.layout? = p.catalog.layout?
  size_eq : p'.catalog.pageSize = p.catalog.pageSize

variable {P Q : LogRecord → Prop} {p p' : Pool} {q : PageId} {page : Page}
  {t owner : TransactionId}

theorem Steady.logs (h : Steady p p') (hgains : Journal.Gains P p.journal p'.journal) :
    Logs P p p' :=
  ⟨h.intact, hgains, h.layout_eq, h.size_eq⟩

theorem Silent.logs (h : Silent p p') : Logs P p p' :=
  h.steady.logs (.of_medium (by rw [h.journal_eq]))

namespace Logs

theorem trans {p'' : Pool} (h : Logs P p p') (h' : Logs P p' p'') : Logs P p p'' :=
  ⟨h'.intact, h.gains.trans h'.gains, h'.layout_eq.trans h.layout_eq, h'.size_eq.trans h.size_eq⟩

theorem records (h : Logs P p p') (hp : p.Records) : p'.Records := by
  intro t page hwhole
  rw [h.gains.takes_eq]
  exact hp t page (h.size_eq ▸ hwhole)

end Logs

theorem records_make {capacity : Nat} {catalog : Catalog} {journal : Journal}
    (h : make capacity catalog journal = .ok p)
    (hfile : ∀ log, journal.medium = .file log → catalog.pageSize < 2 ^ 32) : p.Records := by
  obtain ⟨-, rfl⟩ := make_eq_ok h
  intro t page hwhole
  simp only at hwhole ⊢
  cases hm : journal.medium with
  | file log =>
    have hsize := hfile log hm
    exact LogRecord.short_update (hwhole.2 ▸ hsize) (hwhole.1 ▸ hsize)
  | _ => trivial

/-! What commits and flushes log. -/

/-- What a flush logs of a changed page: its change, unless the owner has completed. -/
def flushRecords (p : Pool) (owner : TransactionId) (page : Page) : List LogRecord :=
  if p.isActive owner then [updateRecord owner page] else []

theorem logFlush_eq_log (p : Pool) (owner : TransactionId) (page : Page) :
    p.logFlush owner page =
      ((p.journal.log (p.flushRecords owner page)).1,
        { p with journal := (p.journal.log (p.flushRecords owner page)).2 }) := by
  simp only [logFlush, Journal.log, flushRecords]
  rcases p.journal.appendAll (if p.isActive owner then [updateRecord owner page] else []) with
    ⟨_ | _, journal⟩
  · rfl
  · simp only
    cases journal.force <;> rfl

theorem logCommit_eq_log (p : Pool) (t : TransactionId) :
    p.logCommit t =
      ((p.journal.log (p.commitRecords t)).1,
        { p with journal := (p.journal.log (p.commitRecords t)).2 }) := by
  simp only [logCommit, Journal.log]
  rcases p.journal.appendAll (p.commitRecords t) with ⟨_ | _, journal⟩
  · rfl
  · simp only
    cases journal.force <;> rfl

theorem takes_flushRecords (hp : p.Records) (hwhole : page.Whole p.catalog.pageSize) :
    ∀ r ∈ p.flushRecords owner page, p.journal.medium.Takes r := by
  intro r hr
  unfold flushRecords at hr
  split at hr
  · rw [List.mem_singleton.1 hr]
    exact hp owner page hwhole
  · contradiction

theorem takes_commitRecords (h : p.Intact) (hp : p.Records) (t : TransactionId) :
    ∀ r ∈ p.commitRecords t, p.journal.medium.Takes r := by
  intro r hr
  rcases List.mem_append.1 hr with hr | hr
  · obtain ⟨page, hpage, rfl⟩ := List.mem_map.1 hr
    exact hp t page (h.whole ((mem_dirtiedBy h.resident).1 hpage).1)
  · rw [List.mem_singleton.1 hr]
    exact LogMedium.takes_commit _ t

/-- The journal that a flush of the page leaves. -/
theorem journal_flush (hq : p.pages.get? q = some page) :
    (p.flush q).2.journal =
      match page.dirtiedBy with
      | some owner => (p.logFlush owner page).2.journal
      | none => p.journal := by
  simp only [flush, hq]
  cases hown : page.dirtiedBy with
  | some owner =>
    simp only [flushDirty]
    rcases p.logFlush owner page with ⟨_ | _, p'⟩
    · rfl
    · simp only
      cases p'.catalog.writePage page with
      | error e => rfl
      | ok catalog =>
        simp only
        split <;> rfl
  | none =>
    simp only [flushClean]
    split
    · cases p.catalog.writePage page <;> rfl
    · rfl

/-- A flush logs changes of pages, and changes the cache by no more than clean pages. -/
theorem logs_flush (h : p.Intact) (hp : p.Records) (q : PageId) :
    Logs (fun r => r.kind = .update) p (p.flush q).2 := by
  cases hq : p.pages.get? q with
  | none =>
    have hsame : (p.flush q).2 = p := by simp only [flush, hq]
    rw [hsame]
    exact (Silent.refl h).logs
  | some page =>
    have hgains : Journal.Gains (fun r => r.kind = .update) p.journal (p.flush q).2.journal := by
      rw [journal_flush hq]
      cases page.dirtiedBy with
      | none => exact .refl _
      | some owner =>
        simp only [logFlush_eq_log]
        refine .of_log (takes_flushRecords hp (h.whole hq)) fun taken rest hnew _ r hr => ?_
        have hmem : r ∈ p.flushRecords owner page := hnew ▸ List.mem_append_left rest hr
        unfold flushRecords at hmem
        split at hmem
        · rw [List.mem_singleton.1 hmem]
          rfl
        · contradiction
    exact (Steady.flush h q).logs hgains

theorem logs_flushEach (h : p.Intact) (hp : p.Records) (qs : List PageId) :
    Logs (fun r => r.kind = .update) p (p.flushEach qs).2 :=
  flushEach_preserves (P := Logs (fun r => r.kind = .update) p)
    (fun q hl => hl.trans (logs_flush hl.intact (hl.records hp) q)) (Silent.refl h).logs qs

/-- Only the last record of a commit is no change of a page. -/
theorem kind_of_mem_commitRecords {taken rest : List LogRecord} {r : LogRecord}
    (hnew : p.commitRecords t = taken ++ rest) (hr : r ∈ taken) :
    r.kind = .update ∨ r = .commit t ∧ rest = [] := by
  have hupdate {r : LogRecord} (hr : r ∈ (p.dirtiedBy t).map (updateRecord t)) :
      r.kind = .update := by
    obtain ⟨page, -, rfl⟩ := List.mem_map.1 hr
    rfl
  by_cases hrest : rest = []
  · have hmem : r ∈ p.commitRecords t := hnew ▸ List.mem_append_left rest hr
    rcases List.mem_append.1 hmem with hmem | hmem
    · exact .inl (hupdate hmem)
    · exact .inr ⟨List.mem_singleton.1 hmem, hrest⟩
  · have hchanges : (p.dirtiedBy t).map (updateRecord t) = taken ++ rest.dropLast := by
      have hdrop := congrArg List.dropLast hnew
      rwa [commitRecords, List.dropLast_concat, List.dropLast_append_of_ne_nil hrest] at hdrop
    exact .inl (hupdate (hchanges ▸ List.mem_append_left _ hr))

theorem journal_writeCommitted (p : Pool) (page : Page) :
    (p.writeCommitted page).2.journal = p.journal := by
  unfold writeCommitted
  split <;> rfl

theorem journal_rollBack (p : Pool) (page : Page) : (p.rollBack page).2.journal = p.journal := by
  unfold rollBack
  split
  · split <;> rfl
  · rfl

theorem journal_rollBack_all (p : Pool) (pages : List Page) :
    (forEachPage rollBack p pages).2.journal = p.journal :=
  forEachPage_preserves (P := fun k => k.journal = p.journal)
    (fun k page hk => (journal_rollBack k page).trans hk) rfl pages

theorem journal_commit (p : Pool) (t : TransactionId) :
    (p.commit t).2.journal = (p.logCommit t).2.journal := by
  simp only [commit]
  rcases p.logCommit t with ⟨_ | _, p'⟩
  · rfl
  · exact forEachPage_preserves (P := fun k => k.journal = p'.journal)
      (fun k page hk => (journal_writeCommitted k page).trans hk) rfl (p.dirtiedBy t)

/-- A commit logs its own record only if the journal has taken all that comes before it. -/
theorem logs_commit (h : p.Intact) (hp : p.Records) (t : TransactionId) :
    Logs (fun r => r.kind = .update ∨
      r = .commit t ∧ (p.journal.appendAll (p.commitRecords t)).1 = .ok ()) p (p.commit t).2 := by
  have hgains : Journal.Gains (fun r => r.kind = .update ∨
      r = .commit t ∧ (p.journal.appendAll (p.commitRecords t)).1 = .ok ()) p.journal
      (p.commit t).2.journal := by
    rw [journal_commit, logCommit_eq_log]
    refine .of_log (takes_commitRecords h hp t) fun taken rest hnew hrest r hr => ?_
    rcases kind_of_mem_commitRecords hnew hr with hkind | ⟨hr, hnil⟩
    · exact .inl hkind
    · exact .inr ⟨hr, hrest.resolve_left fun hne => hne hnil⟩
  exact (Steady.complete h t true).logs hgains

/-- An abort logs no more than its own record. -/
theorem logs_abort (h : p.Intact) (t : TransactionId) :
    Logs (fun r => r = .abort t) p (p.abort t).2 := by
  refine (Steady.complete h t false).logs ?_
  simp only [complete, abort, Bool.false_eq_true, if_false]
  split
  · have hjournal := journal_rollBack_all p (p.dirtiedBy t)
    rcases hrolled : forEachPage rollBack p (p.dirtiedBy t) with ⟨restored, p₁⟩
    rw [hrolled] at hjournal
    cases happend : p₁.journal.append (.abort t) with
    | error e => exact .of_medium (congrArg Journal.medium hjournal)
    | ok journal =>
      rw [hjournal] at happend
      exact .of_append (LogMedium.takes_abort _ t) rfl happend
  · exact .refl _

end Pool

namespace World

/-- What holds of a world whatever its callers do: the pool is intact, waiting calls fit their
tables, and the journal can record what the pool logs. -/
structure Intact (w : World) : Prop where
  pool : w.pool.Intact
  calls : ∀ call ∈ w.session.pending, call.call.Fits w.pool.catalog.layout?
  records : w.pool.Records

/-- A commit record that a step logs is that of a commit whose records have all been taken. -/
def Accounts (w : World) (a : Action) (r : LogRecord) : Prop :=
  ∀ t, r = .commit t → a = .complete t true ∧
    (w.pool.journal.appendAll (w.pool.commitRecords t)).1 = .ok ()

variable {w : World}

theorem intact_ofPool {p : Pool} {capacity : Nat} {catalog : Catalog} {journal : Journal}
    (hs : catalog.Sound) (hp : Pool.make capacity catalog journal = .ok p)
    (hfile : ∀ log, journal.medium = .file log → catalog.pageSize < 2 ^ 32) :
    (ofPool p).Intact :=
  ⟨Pool.intact_make hs hp, nofun, Pool.records_make hp hfile⟩

theorem journal_ofPool {p : Pool} {capacity : Nat} {catalog : Catalog} {journal : Journal}
    (hp : Pool.make capacity catalog journal = .ok p) : (ofPool p).pool.journal = journal := by
  obtain ⟨-, rfl⟩ := Pool.make_eq_ok hp
  rfl

theorem Intact.sturdy (h : w.Intact) : w.Sturdy := ⟨h.pool, h.calls⟩

theorem Sturdy.intact {P : LogRecord → Prop} {w' : World} (h : w'.Sturdy) (hr : w.pool.Records)
    (hlogs : Pool.Logs P w.pool w'.pool) : w'.Intact :=
  ⟨h.pool, h.calls, hlogs.records hr⟩

/-- The pool may log under waiting calls, which stay as they are. -/
theorem Intact.withPool {P : LogRecord → Prop} (h : w.Intact) {p : Pool}
    (hp : Pool.Logs P w.pool p) : (w.withPool p).Intact :=
  (h.sturdy.withPool ⟨hp.intact, hp.layout_eq, hp.size_eq⟩).intact h.records hp

theorem Intact.issue (h : w.Intact) (step : Nat) (c : Command) :
    (w.issue step c).2.Intact ∧ Pool.Silent w.pool (w.issue step c).2.pool := by
  obtain ⟨hsturdy, hsilent⟩ := h.sturdy.issue step c
  exact ⟨hsturdy.intact h.records (hsilent.logs (P := fun _ => True)), hsilent⟩

theorem Intact.turn (h : w.Intact) (i : Nat) :
    (w.turn i).2.Intact ∧ Pool.Silent w.pool (w.turn i).2.pool := by
  obtain ⟨hsturdy, hsilent⟩ := h.sturdy.turn i
  exact ⟨hsturdy.intact h.records (hsilent.logs (P := fun _ => True)), hsilent⟩

theorem Intact.failStore (h : w.Intact) (table : TableId) (faults : DeviceFaults) :
    (w.perform (.failStore table faults)).Intact ∧
      Pool.Silent w.pool (w.perform (.failStore table faults)).pool := by
  obtain ⟨hsturdy, hsilent⟩ := h.sturdy.failStore table faults
  exact ⟨hsturdy.intact h.records (hsilent.logs (P := fun _ => True)), hsilent⟩

/-- Every step keeps a world intact, and accounts for the commits that it logs. -/
theorem Intact.perform (h : w.Intact) (a : Action) :
    (w.perform a).Intact ∧
      Journal.Gains (w.Accounts a) w.pool.journal (w.perform a).pool.journal := by
  have hsilent {w' : World} (hw : w'.Intact ∧ Pool.Silent w.pool w'.pool) :
      w'.Intact ∧ Journal.Gains (w.Accounts a) w.pool.journal w'.pool.journal :=
    ⟨hw.1, hw.2.logs.gains⟩
  have hpool {p : Pool} (hp : Pool.Silent w.pool p) :
      (w.withPool p).Intact ∧ Journal.Gains (w.Accounts a) w.pool.journal p.journal :=
    ⟨h.withPool (hp.logs (P := fun _ => True)), hp.logs.gains⟩
  have hflush {p : Pool} (hp : Pool.Logs (fun r => r.kind = .update) w.pool p) :
      (w.withPool p).Intact ∧ Journal.Gains (w.Accounts a) w.pool.journal p.journal := by
    refine ⟨h.withPool hp, hp.gains.imp ?_⟩
    rintro r hr t rfl
    contradiction
  cases a with
  | begin => exact hpool (.begin h.pool)
  | call step c => exact hsilent (h.issue step c)
  | turn i => exact hsilent (h.turn i)
  | complete t commit =>
    cases commit with
    | true =>
      have hlogs := Pool.logs_commit h.pool h.records t
      have hintact := h.withPool hlogs
      refine ⟨⟨hintact.pool, hintact.calls, hintact.records⟩, hlogs.gains.imp ?_⟩
      rintro r hr u rfl
      rcases hr with hr | ⟨hr, happend⟩
      · contradiction
      · obtain rfl := LogRecord.commit.inj hr
        exact ⟨rfl, happend⟩
    | false =>
      have hlogs := Pool.logs_abort h.pool t
      have hintact := h.withPool hlogs
      refine ⟨⟨hintact.pool, hintact.calls, hintact.records⟩, hlogs.gains.imp ?_⟩
      rintro r rfl u hr
      contradiction
  | flush page => exact hflush (Pool.logs_flush h.pool h.records page)
  | flushAll => exact hflush (Pool.logs_flushEach h.pool h.records _)
  | flushOf t => exact hflush (Pool.logs_flushEach h.pool h.records _)
  | discard page => exact hpool (.discard h.pool page)
  | releaseLock t page => exact hpool (.locks h.pool _)
  | failStore table faults => exact hsilent (h.failStore table faults)
  | failLog refuses forceFails =>
    have hintact : ({ w.pool with
        journal := { w.pool.journal with refuses, forceFails } } : Pool).Intact :=
      h.pool.congr rfl rfl rfl rfl fun _ => id
    exact ⟨⟨hintact, h.calls, h.records⟩, .of_medium rfl⟩

end World

end PagePool
