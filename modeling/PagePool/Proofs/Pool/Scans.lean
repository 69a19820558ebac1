import PagePool.Proofs.Pool.Search

namespace PagePool

/-- Whether a task only reads pages. -/
def Task.IsRead : Task → Prop
  | .fetch => True
  | .scan _ _ => True
  | _ => False

theorem Task.IsRead.not_givesBack {task : Task} (h : task.IsRead) : task.givesBack = false := by
  cases task with
  | fetch => rfl
  | scan rest found => rfl
  | _ => exact h.elim

theorem Ledger.record_of_isRead {l : Ledger} {layout? : TableId → Option Layout} {c : Call}
    {result : Except Error Answer} (h : c.task.IsRead) : l.record layout? c result = l := by
  unfold record
  split
  · split
    · cases htask : c.task with
      | fetch => rfl
      | scan rest found => rfl
      | _ =>
        rw [htask] at h
        exact h.elim
    · rfl
  · rfl

namespace Pool

variable {p p' : Pool} {l : Ledger} {c c' : Call} {page : Page} {t : TransactionId} {q : PageId}
  {pages : List PageId}

/-- A scan that ends well has had its last page. -/
theorem scan_eq_ok {r : LockRequest} {rest : List PageId} {found : List StoredTuple}
    {answer : Answer} (hrun : p.runCall 1 ⟨r, .scan rest found⟩ = (.ended (.ok answer), p')) :
    rest = [] ∧ p.locks.acquire r = (.granted, p'.locks) := by
  simp only [runCall] at hrun
  rcases ha : p.locks.acquire r with ⟨attempt, locks⟩
  cases attempt with
  | waits => simp [ha] at hrun
  | deadlock => simp [ha] at hrun
  | granted =>
    rcases ho : ({ p with locks } : Pool).read r.tid r.page with ⟨result, k⟩
    obtain ⟨hlocks, -, -⟩ := read_frame ho
    have hobtain : ({ p with locks } : Pool).obtain r (Task.scan rest found).source =
      (result, k) := ho
    simp only [ha, resume, hobtain] at hrun
    cases result with
    | error e => cases (Prod.mk.inj hrun).1
    | ok stored =>
      simp only at hrun
      cases hheap : k.catalog.table r.page.table with
      | error e =>
        rw [hheap] at hrun
        cases (Prod.mk.inj hrun).1
      | ok heap =>
        cases rest with
        | cons q rest =>
          simp only [hheap, continueOn, scanNext] at hrun
          cases (Prod.mk.inj hrun).1
        | nil =>
          simp only [hheap, continueOn, scanNext] at hrun
          cases hrun
          exact ⟨rfl, by rw [hlocks]⟩

/-- Who only reads goes on reading. -/
theorem isRead_of_blocked (h : p.Agrees l) (hc : Waits p l pages c)
    (hrun : p.runCall 1 c = (.blocked c', p')) (hread : c.task.IsRead) : c'.task.IsRead := by
  rcases turn_cases h hc with ⟨c'', k, hrun', -, hgoes, -⟩ | ⟨result, k, hrun', -⟩
  · cases hrun.symm.trans hrun'
    rcases hgoes with rfl | hgoes
    · exact hread
    · unfold GoesOn at hgoes
      split at hgoes
      · rename_i htask _
        rw [htask] at hread
        exact hread.elim
      · rename_i htask
        rw [htask]
        trivial
      · exact hgoes.elim
  · cases hrun.symm.trans hrun'

/-- How a scan starts: it fails, or finds a table without pages, or asks for the first page. -/
theorem start_scan (hs : p.catalog.Sound) (t : TransactionId) (i : TableId) :
    (∃ e, (Command.scan t i).start p = (.failed e, p)) ∨
    (Command.scan t i).scans p.catalog = some (p.catalog.pagesOf i) ∧
      (p.catalog.pagesOf i = [] ∧ (Command.scan t i).start p = (.ended (.ok (.tuples [])), p) ∨
        ∃ q rest, p.catalog.pagesOf i = q :: rest ∧
          (Command.scan t i).start p = (.needs ⟨⟨t, q, .shared⟩, .scan rest []⟩, p)) := by
  simp only [Command.start, startScan, Command.scans]
  cases ht : p.catalog.table i with
  | error e => exact .inl ⟨e, rfl⟩
  | ok heap =>
    have hget := Catalog.table_eq_ok.1 ht
    rw [Catalog.pagesOf_eq hs hget, hget]
    refine .inr ⟨rfl, ?_⟩
    simp only
    cases heap.pageIds with
    | nil => exact .inl ⟨rfl, rfl⟩
    | cons q rest => exact .inr ⟨q, rest, rfl, rfl⟩

/-- A scan has been started to wait for the first page of its table. -/
theorem scan_of_start {c : Command} {rest : List PageId} {found : List StoredTuple} {call : Call}
    (hs : p.catalog.Sound) (h : c.start p = (.needs call, p')) (htask : call.task = .scan rest found) :
    c = .scan call.request.tid call.request.page.table ∧ p' = p ∧
      c.scans p.catalog = some (p.catalog.pagesOf call.request.page.table) := by
  have hstarted := start_task (c := c) (by rw [h])
  rw [htask] at hstarted
  cases c with
  | scan t i =>
    rcases start_scan hs t i with ⟨e, hs⟩ | ⟨hscans, ⟨-, hs⟩ | ⟨q, qs, hpages, hs⟩⟩
    · cases h.symm.trans hs
    · cases h.symm.trans hs
    · cases h.symm.trans hs
      obtain ⟨rfl, -⟩ := Catalog.mem_pagesOf.1 (hpages ▸ List.mem_cons_self)
      exact ⟨rfl, rfl, hscans⟩
  | _ => simp at hstarted

end Pool

namespace World

/-- A scan of the table by the transaction ends well in this step, and finds these tuples. -/
inductive ScanEnds (w : World) (t : TransactionId) (i : TableId) (found : List StoredTuple) :
    Action → Prop where
  | atOnce {step} : (w.issue step (.scan t i)).1 = some (.ok (.tuples found)) →
      ScanEnds w t i found (.call step (.scan t i))
  | inTurn {j call rest sofar step} : w.session.pending[j]? = some call →
      call.call.task = .scan rest sofar → call.call.request.tid = t →
      call.call.request.page.table = i → (w.turn j).1 = some (step, .ok (.tuples found)) →
      ScanEnds w t i found (.turn j)

/-- The transaction inserts and deletes nothing, and does not complete. -/
def OnlyReads (t : TransactionId) : Action → Prop
  | .call _ (.insert u _ _) => u ≠ t
  | .call _ (.delete u _) => u ≠ t
  | .complete u _ => u ≠ t
  | _ => True

/-- Steps of orderly callers, one of which only reads. -/
def Reading (t : TransactionId) (w : World) (a : Action) : Prop := w.Orderly a ∧ OnlyReads t a

instance (t : TransactionId) : (a : Action) → Decidable (OnlyReads t a)
  | .call _ (.insert u _ _) => inferInstanceAs (Decidable (u ≠ t))
  | .call _ (.delete u _) => inferInstanceAs (Decidable (u ≠ t))
  | .complete u _ => inferInstanceAs (Decidable (u ≠ t))
  | .call _ (.fetch _ _ _) => isTrue trivial
  | .call _ (.scan _ _) => isTrue trivial
  | .begin => isTrue trivial
  | .turn _ => isTrue trivial
  | .flush _ => isTrue trivial
  | .flushAll => isTrue trivial
  | .flushOf _ => isTrue trivial
  | .discard _ => isTrue trivial
  | .releaseLock _ _ => isTrue trivial
  | .failStore _ _ => isTrue trivial
  | .failLog _ _ => isTrue trivial

instance (t : TransactionId) (w : World) (a : Action) : Decidable (Reading t w a) :=
  inferInstanceAs (Decidable (_ ∧ _))

/-- Each scan that waits set out to read the first pages of its table. -/
def SetOut (w : World) : Prop :=
  ∀ p ∈ w.session.pending, ∀ rest found, p.call.task = .scan rest found →
    ∃ n ≤ w.pool.catalog.pageCount p.call.request.page.table,
      w.scanned p.call.request.tid = p.call.request.page.table.pages n

variable {w w' : World} {a b : Action} {i : TableId} {t : TransactionId} {other : Pending Call}
  {found first again : List StoredTuple} {n : Nat} {q : PageId}

theorem scanned_perform (w : World) (a : Action) :
    (w.perform a).scanned =
      match a with
      | .call _ c => w.scannedAfter c
      | _ => w.scanned := by
  cases a with
  | call step c =>
    simp only [perform, issue]
    split <;> rfl
  | turn j =>
    simp only [perform, turn]
    split <;> rfl
  | failStore table faults =>
    simp only [perform]
    split <;> rfl
  | _ => rfl

/-- Who waits has set out on no other scan. -/
theorem scanned_of_pending (ha : w.Orderly a) (hother : other ∈ w.session.pending) :
    (w.perform a).scanned other.call.request.tid = w.scanned other.call.request.tid := by
  rw [scanned_perform]
  split
  · exact scannedAfter_of_ne (ha other hother)
  · rfl

/-- A scan goes on in its table. -/
theorem scan_of_blocked {j : Nat} {call : Pending Call} {c : Call} {p' : Pool} {rest : List PageId}
    (hw : w.Consistent) (hset : w.SetOut) (hj : w.session.pending[j]? = some call)
    (hrun : w.pool.runCall 1 call.call = (.blocked c, p')) (htask : c.task = .scan rest found) :
    (∃ rest found, call.call.task = .scan rest found) ∧
      c.request.tid = call.call.request.tid ∧
      c.request.page.table = call.call.request.page.table := by
  have hcall := List.mem_of_getElem? hj
  rcases Pool.turn_cases hw.agrees (hw.waits call hcall) with
    ⟨c', k, hrun', ht, hgoes, hwaits, -⟩ | ⟨result, k, hrun', -⟩
  · cases hrun.symm.trans hrun'
    rcases hgoes with rfl | hgoes
    · exact ⟨⟨rest, found, htask⟩, rfl, rfl⟩
    · have hscan : ∃ rest found, call.call.task = .scan rest found := by
        rw [htask] at hgoes
        unfold Pool.GoesOn at hgoes
        split at hgoes
        · contradiction
        · rename_i heq _
          exact ⟨_, _, heq⟩
        · exact hgoes.elim
      refine ⟨hscan, ht, ?_⟩
      -- its next page is one that it set out to read
      obtain ⟨rest', found', htask'⟩ := hscan
      obtain ⟨n, -, hpages⟩ := hset call hcall rest' found' htask'
      rw [Pool.Waits, htask] at hwaits
      obtain ⟨seen, hseen, -⟩ := hwaits
      have hmem : c.request.page ∈ call.call.request.page.table.pages n := by
        rw [← hpages, hseen]
        exact List.mem_append_right _ List.mem_cons_self
      obtain ⟨k, -, hk⟩ := List.mem_map.1 hmem
      rw [← hk]
  · cases hrun.symm.trans hrun'

theorem SetOut.perform (hset : w.SetOut) (hw : w.Consistent) (hr : w.InRange) (ha : w.Orderly a) :
    (w.perform a).SetOut := by
  intro other hother rest found htask
  rcases mem_pending_perform hother with
    hother | ⟨step, c, call, rfl, rfl, hstart⟩ | ⟨j, call, c, rfl, hj, rfl, hrun⟩
  · obtain ⟨n, hn, hpages⟩ := hset other hother rest found htask
    exact ⟨n, hn.trans (pageCount_le_perform hw hr ha _), (scanned_of_pending ha hother).trans hpages⟩
  · obtain ⟨hc, hpool, hscans⟩ := Pool.scan_of_start hw.agrees.catalog hstart htask
    refine ⟨w.pool.catalog.pageCount call.request.page.table, by rw [hpool], ?_⟩
    have hscanned := scannedAfter_of_scans hscans
    rw [scanned_perform]
    rwa [hc] at hscanned ⊢
  · obtain ⟨⟨rest', found', htask'⟩, ht, htable⟩ := scan_of_blocked hw hset hj hrun htask
    obtain ⟨n, hn, hpages⟩ := hset call (List.mem_of_getElem? hj) rest' found' htask'
    simp only [ht, htable, scanned_perform]
    exact ⟨n, hn.trans (pageCount_le_perform hw hr ha _), hpages⟩

theorem setOut_ofPool (p : Pool) : (ofPool p).SetOut := nofun

/-- A scan that ends has found what its transaction finds on all pages that it set out to read, and
leaves it their locks. -/
theorem ScanEnds.finds (h : w.ScanEnds t i found a) (hw : w.Consistent) (hset : w.SetOut)
    (ha : w.Orderly a) :
    ∃ n ≤ w.pool.catalog.pageCount i, (w.perform a).scanned t = i.pages n ∧
      found = (i.pages n).flatMap (w.ledger.tuplesIn w.pool.catalog.layout? t) ∧
      (∀ q ∈ i.pages n, (w.perform a).pool.locks.holds t q = true) ∧ (w.perform a).Idle t ∧
      (w.perform a).ledger = w.ledger ∧ (w.perform a).pool.catalog = w.pool.catalog := by
  cases h with
  | atOnce hissue =>
    rename_i step
    rcases Pool.start_scan hw.agrees.catalog t i with
      ⟨e, h⟩ | ⟨hscans, ⟨hempty, h⟩ | ⟨q, qs, -, h⟩⟩
    · simp [issue, h, Progress.failed] at hissue
    · simp only [issue, h] at hissue
      obtain rfl := Answer.tuples.inj (Except.ok.inj (Option.some.inj hissue))
      refine ⟨0, Nat.zero_le _, ?_, rfl, fun q hq => absurd hq List.not_mem_nil, ?_, ?_, ?_⟩
      · rw [scanned_perform]
        exact (scannedAfter_of_scans hscans).trans hempty
      · simp only [perform, issue, h]
        exact ha
      · exact ledger_perform w _
      · simp only [perform, issue, h]
        rfl
    · simp [issue, h] at hissue
  | inTurn hj htask ht htable hturn =>
    rename_i j call rest sofar step
    subst ht
    have hcall := List.mem_of_getElem? hj
    obtain ⟨hrun, hledger⟩ := runCall_of_turn hj hturn
    obtain ⟨n, hn, hpages⟩ := hset call hcall rest sofar htask
    have heq : call.call = ⟨call.call.request, .scan rest sofar⟩ := by rw [← htask]
    rw [heq] at hrun
    obtain ⟨rfl, hgranted⟩ := Pool.scan_eq_ok hrun
    rw [← heq] at hrun
    have hwaits := hw.waits call hcall
    rw [htable] at hn hpages
    have hscanned : (w.perform (.turn j)).scanned = w.scanned := scanned_perform w (.turn j)
    refine ⟨n, hn, by rw [hscanned, hpages], ?_, ?_, ?_, ?_, ?_⟩
    · rcases Pool.turn_cases hw.agrees hwaits with ⟨c', p', hrun', -⟩ | ⟨result, p', hrun', hanswers, -⟩
      · cases hrun.symm.trans hrun'
      · cases hrun.symm.trans hrun'
        simp only [Pool.Answers, htask, hpages] at hanswers
        exact Answer.tuples.inj hanswers
    · -- it held all the pages before the last, and has just been granted that one
      rw [Pool.Waits, htask] at hwaits
      obtain ⟨seen, hseen, hheld, -⟩ := hwaits
      intro q hq
      have hkept : (w.pool.locks.acquire call.call.request).2 = (w.turn j).2.pool.locks := by
        rw [hgranted]
      rw [← hpages, hseen] at hq
      rcases List.mem_append.1 hq with hq | hq
      · rw [show (w.perform (.turn j)).pool.locks = _ from hkept.symm]
        exact LockTable.holds_acquire (hheld q hq)
      · rw [List.mem_singleton.1 hq]
        exact hw.agrees.locks.holds_of_granted hgranted
    · rw [show w.perform (.turn j) = (w.turn j).2 from rfl, turn_of_ended hj hrun]
      exact forall_mem_eraseIdx (P := fun c => c.request.tid ≠ call.call.request.tid) hw.one_call hj
        fun _ _ hne => hne
    · exact hledger.trans (Ledger.record_eq_self (by simp))
    · have hnot : ¬Pool.IsSearch call.call := by
        rintro ⟨_, _, _, hsearch⟩
        rw [htask] at hsearch
        contradiction
      have hcatalog := Pool.catalog_runCall (p := w.pool) hnot
      rw [hrun] at hcatalog
      exact hcatalog

/-- What a transaction that only reads can rely on once it has scanned the first pages of a table: it
holds them, finds the same on them, and a scan of the table that waits set out to read as many. -/
structure Rescans (t : TransactionId) (i : TableId) (n : Nat) (view : PageId → Bytes) (w : World) :
    Prop where
  count_le : n ≤ w.pool.catalog.pageCount i
  held : ∀ q ∈ i.pages n, w.pool.locks.holds t q = true
  view_eq : ∀ q ∈ i.pages n, w.ledger.view t q = view q
  reads : ∀ p ∈ w.session.pending, p.call.request.tid = t → p.call.task.IsRead
  scanned : ∀ p ∈ w.session.pending, p.call.request.tid = t →
    ∀ rest found, p.call.task = .scan rest found → p.call.request.page.table = i →
      n ≤ (w.scanned t).length

/-- A transaction that only reads keeps its locks, and on the pages that it holds it finds the same as
before. -/
theorem holds_view_perform (hw : w.Consistent) (ha : Reading t w a)
    (hreads : ∀ p ∈ w.session.pending, p.call.request.tid = t → p.call.task.IsRead)
    (hq : w.pool.locks.holds t q = true) :
    (w.perform a).pool.locks.holds t q = true ∧
      (w.perform a).ledger.view t q = w.ledger.view t q := by
  obtain ⟨horderly, honly⟩ := ha
  have hflush {p' : Pool} (hp : Pool.Flushes w.pool p') : p'.locks.holds t q = true := by
    rw [hp.locks_eq]
    exact hq
  cases a with
  | begin => exact ⟨hq, rfl⟩
  | call step c =>
    rw [ledger_perform, show (w.perform (.call step c)).pool = _ from pool_issue w step c]
    obtain ⟨catalog, ⟨result, hs⟩ | ⟨call, hs, -⟩⟩ := Pool.start_cases w.pool c
    · rw [hs]
      exact ⟨hq, rfl⟩
    · rw [hs]
      exact ⟨hq, rfl⟩
  | turn j =>
    cases hj : w.session.pending[j]? with
    | none =>
      rw [show w.perform (.turn j) = w from congrArg Prod.snd (turn_of_absent hj)]
      exact ⟨hq, rfl⟩
    | some call =>
      have hcall := List.mem_of_getElem? hj
      by_cases ht : call.call.request.tid = t
      · subst ht
        have hread := hreads call hcall rfl
        have hgive : call.call.task.givesBack = true → q ≠ call.call.request.page := by
          rw [hread.not_givesBack]
          nofun
        refine ⟨?_, ?_⟩
        · rw [show (w.perform (.turn j)).pool = _ from pool_turn hj]
          exact Pool.holds_runCall hq hgive
        · rcases turn_cases hw hj with ⟨c', p', hturn, -⟩ | ⟨result, p', hturn, -⟩
          · simp only [perform, hturn]
          · simp only [perform, hturn, Ledger.record_of_isRead hread]
      · rcases turn_cases hw hj with ⟨c', p', hturn, -, -, -, ha⟩ | ⟨result, p', hturn, -, ha⟩
        · simp only [perform, hturn]
          exact ⟨(ha.holds_eq (Ne.symm ht)).trans hq, trivial⟩
        · simp only [perform, hturn]
          exact ⟨(ha.holds_eq (Ne.symm ht)).trans hq, ha.view_eq (Ne.symm ht)⟩
  | complete u commit =>
    have hne : t ≠ u := Ne.symm honly
    exact ⟨((Pool.completes w.pool u commit).holds_eq hne).trans hq,
      Pool.view_completed hw.agrees commit hne hq⟩
  | flush page => exact ⟨hflush (hw.agrees.flush page).2, rfl⟩
  | flushAll => exact ⟨hflush (hw.agrees.flushEach _).2, rfl⟩
  | flushOf u => exact ⟨hflush (hw.agrees.flushEach _).2, rfl⟩
  | discard page => exact horderly.elim
  | releaseLock u page => exact horderly.elim
  | failStore table faults =>
    rw [ledger_perform]
    simp only [perform]
    split <;> exact ⟨hq, trivial⟩
  | failLog refuses forceFails => exact ⟨hq, rfl⟩

namespace Rescans

variable {view : PageId → Bytes}

theorem perform (h : Rescans t i n view w) (hw : w.Consistent) (hr : w.InRange) (hset : w.SetOut)
    (ha : Reading t w a) : Rescans t i n view (w.perform a) := by
  refine ⟨h.count_le.trans (pageCount_le_perform hw hr ha.1 i), fun q hq => ?_, fun q hq => ?_,
    fun other hother ht => ?_, fun other hother ht rest found htask htable => ?_⟩
  · exact (holds_view_perform hw ha h.reads (h.held q hq)).1
  · exact (holds_view_perform hw ha h.reads (h.held q hq)).2.trans (h.view_eq q hq)
  · rcases mem_pending_perform hother with
      hother | ⟨step, c, call, rfl, rfl, hstart⟩ | ⟨j, call, c, rfl, hj, rfl, hrun⟩
    · exact h.reads other hother ht
    · obtain ⟨catalog, ⟨result, hs⟩ | ⟨call', hs, htid, -⟩⟩ := Pool.start_cases w.pool c
      · cases hstart.symm.trans hs
      · obtain rfl := Progress.needs.inj (Prod.mk.inj (hstart.symm.trans hs)).1
        have hstarted := Pool.start_task (c := c) (by rw [hstart])
        cases c with
        | fetch u page access =>
          simp only at hstarted
          rw [hstarted]
          trivial
        | scan u table =>
          obtain ⟨rest, hscan⟩ := hstarted
          rw [hscan]
          trivial
        | insert u table tuple => exact absurd (htid.symm.trans ht) ha.2
        | delete u record? => exact absurd (htid.symm.trans ht) ha.2
    · have hcall := List.mem_of_getElem? hj
      rcases Pool.turn_cases hw.agrees (hw.waits call hcall) with
        ⟨c', p', hrun', htid, -⟩ | ⟨result, p', hrun', -⟩
      · cases hrun.symm.trans hrun'
        exact Pool.isRead_of_blocked hw.agrees (hw.waits call hcall) hrun
          (h.reads call hcall (htid.symm.trans ht))
      · cases hrun.symm.trans hrun'
  · rcases mem_pending_perform hother with
      hother | ⟨step, c, call, rfl, rfl, hstart⟩ | ⟨j, call, c, rfl, hj, rfl, hrun⟩
    · have hsame := scanned_of_pending ha.1 hother
      rw [ht] at hsame
      rw [hsame]
      exact h.scanned other hother ht rest found htask htable
    · obtain ⟨hc, -, hscans⟩ := Pool.scan_of_start hw.agrees.catalog hstart htask
      have hscanned := scannedAfter_of_scans hscans
      simp only at ht htable
      rw [hc, ht, htable] at hscanned
      have hlater : (w.perform (.call step c)).scanned t = w.pool.catalog.pagesOf i := by
        rw [scanned_perform, hc, ht, htable]
        exact hscanned
      rw [hlater, Catalog.pagesOf, TableId.length_pages]
      exact h.count_le
    · obtain ⟨⟨rest', found', htask'⟩, htid, htable'⟩ := scan_of_blocked hw hset hj hrun htask
      rw [scanned_perform]
      exact h.scanned call (List.mem_of_getElem? hj) (htid.symm.trans ht) rest' found' htask'
        (htable'.symm.trans htable)

end Rescans

/-- A scan that ends later has set out to read as many pages at least. -/
theorem ScanEnds.length_le {view : PageId → Bytes} (h : w.ScanEnds t i found a)
    (hw : w.Consistent) (hlater : Rescans t i n view w) :
    n ≤ ((w.perform a).scanned t).length := by
  rw [scanned_perform]
  cases h with
  | @atOnce step hissue =>
    rcases Pool.start_scan hw.agrees.catalog t i with ⟨e, h⟩ | ⟨hscans, -⟩
    · simp [issue, h, Progress.failed] at hissue
    · have hpages : w.scannedAfter (.scan t i) t = w.pool.catalog.pagesOf i :=
        scannedAfter_of_scans hscans
      simp only [hpages, Catalog.pagesOf, TableId.length_pages]
      exact hlater.count_le
  | inTurn hj htask ht htable _ =>
    exact hlater.scanned _ (List.mem_of_getElem? hj) ht _ _ htask htable

theorem Reaches.setOut {rule : World → Action → Prop} {start : World}
    (hreach : Reaches rule start w) (hrule : ∀ w a, rule w a → w.Orderly a)
    (hstart : start.Consistent) (hr : start.InRange) (hset : start.SetOut) : w.SetOut := by
  induction hreach with
  | refl => exact hset
  | step hreach ha ih =>
    exact ih.perform (hreach.consistent hrule hstart) (hreach.inRange hrule hstart hr) (hrule _ _ ha)

/-- While a transaction only reads, it can rely on what it has scanned. -/
theorem Reaches.rescans {start : World} {view : PageId → Bytes}
    (hreach : Reaches (Reading t) start w) (hstart : start.Consistent) (hr : start.InRange)
    (hset : start.SetOut) (h : Rescans t i n view start) :
    Rescans t i n view w ∧ w.pool.catalog.layout? = start.pool.catalog.layout? := by
  have hrule (w : World) (a : Action) (ha : Reading t w a) : w.Orderly a := ha.1
  induction hreach with
  | refl => exact ⟨h, rfl⟩
  | step hreach ha ih =>
    obtain ⟨hscans, hlayout⟩ := ih
    have hw := hreach.consistent hrule hstart
    have hrange := hreach.inRange hrule hstart hr
    exact ⟨hscans.perform hw hrange (hreach.setOut hrule hstart hr hset) ha,
      (layout?_perform hw ha.1).trans hlayout⟩

/-- A transaction scans a table and later, after it has only read in between, it scans the table
again, while the others insert, delete, commit and abort. The second scan finds what the first one has
found, and after it only tuples on pages that the table did not have when the first scan started. If
the table had gained no page when the second one started, so that both set out to read the same pages,
they find the same. -/
theorem scans_again {p : Pool} {capacity : Nat} {catalog : Catalog} {journal : Journal}
    (hs : catalog.Sound) (hp : Pool.make capacity catalog journal = .ok p)
    (hw : Reaches Orderly (ofPool p) w) (ha : w.Orderly a) (hfirst : w.ScanEnds t i first a)
    (hw' : Reaches (Reading t) (w.perform a) w') (hb : w'.Orderly b)
    (hagain : w'.ScanEnds t i again b) :
    (∃ more, again = first ++ more ∧
      ∀ x ∈ more, ((w.perform a).scanned t).length ≤ x.1.page.pageNo.toNat) ∧
    ((w'.perform b).scanned t = (w.perform a).scanned t → again = first) := by
  have hrule (w : World) (a : Action) (ha : w.Orderly a) : w.Orderly a := ha
  have hstart := consistent_ofPool hs hp
  have hc := hw.consistent hrule hstart
  have hr := hw.inRange hrule hstart (inRange_ofPool p)
  have hset := hw.setOut hrule hstart (inRange_ofPool p) (setOut_ofPool p)
  obtain ⟨n, hn, hscanned, rfl, hheld, hidle, hledger, hcatalog⟩ := hfirst.finds hc hset ha
  have hrescans : Rescans t i n (w.ledger.view t) (w.perform a) := by
    refine ⟨hn.trans (pageCount_le_perform hc hr ha i), hheld, fun q _ => by rw [hledger],
      fun other hother ht => absurd ht (hidle other hother),
      fun other hother ht => absurd ht (hidle other hother)⟩
  have hreading (w : World) (a : Action) (ha : Reading t w a) : w.Orderly a := ha.1
  have hc₁ := hc.perform ha
  have hr₁ := hr.perform hc ha
  have hset₁ := hset.perform hc hr ha
  obtain ⟨hlater, hlayout⟩ := hw'.rescans hc₁ hr₁ hset₁ hrescans
  have hc' := hw'.consistent hreading hc₁
  have hset' := hw'.setOut hreading hc₁ hr₁ hset₁
  obtain ⟨m, hm, hscanned', rfl, -⟩ := hagain.finds hc' hset' hb
  have hle : n ≤ m := by
    have hlength := hagain.length_le hc' hlater
    rwa [hscanned', TableId.length_pages] at hlength
  obtain ⟨more, hmore, hrange⟩ := TableId.pages_eq_append (i := i) hle
    (hm.trans (Nat.le_of_lt (w'.pool.catalog.pageCount_lt i)))
  rw [hcatalog] at hlayout
  -- on the pages of the first scan the transaction finds the same
  have hsame : (i.pages n).flatMap (w'.ledger.tuplesIn w'.pool.catalog.layout? t) =
      (i.pages n).flatMap (w.ledger.tuplesIn w.pool.catalog.layout? t) := by
    rw [hlayout]
    exact List.flatMap_congr fun q hq => Ledger.tuplesIn_congr (hlater.view_eq q hq)
  rw [hscanned, hscanned', TableId.length_pages]
  refine ⟨⟨more.flatMap (w'.ledger.tuplesIn w'.pool.catalog.layout? t), ?_, ?_⟩, fun hpages => ?_⟩
  · rw [hmore, List.flatMap_append, hsame]
  · intro x hx
    obtain ⟨q, hq, hmem⟩ := List.mem_flatMap.1 hx
    rw [Ledger.page_of_mem_tuplesIn hmem]
    exact (hrange q hq).2
  · rw [hpages, hsame]

/-- A tuple has been committed, and the first transaction is about to read it. -/
def beforeScan : World :=
  (ofPool onePage).performAll
    [.begin, .begin, .begin, .call 0 (.insert ⟨2⟩ ⟨1⟩ [7]), .turn 0, .complete ⟨2⟩ true,
      .call 1 (.scan ⟨1⟩ ⟨1⟩)]

/-- Another transaction waits to delete the tuple, and the first one scans the table again. -/
def scanAgain : List Action :=
  [.call 2 (.delete ⟨3⟩ (some ⟨⟨⟨1⟩, 0⟩, 0⟩)), .turn 0, .call 3 (.scan ⟨1⟩ ⟨1⟩)]

theorem scans_same_again :
    ∃ again, beforeScan.ScanEnds ⟨1⟩ ⟨1⟩ [(⟨⟨⟨1⟩, 0⟩, 0⟩, [7])] (.turn 0) ∧
      ((beforeScan.perform (.turn 0)).performAll scanAgain).ScanEnds ⟨1⟩ ⟨1⟩ again (.turn 1) ∧
      again = [(⟨⟨⟨1⟩, 0⟩, 0⟩, [7])] := by
  have hbefore : Reaches Orderly (ofPool onePage) beforeScan := Reaches.refl.performAll (by decide)
  have hfirst : beforeScan.ScanEnds ⟨1⟩ ⟨1⟩ [(⟨⟨⟨1⟩, 0⟩, 0⟩, [7])] (.turn 0) :=
    .inTurn rfl rfl rfl rfl rfl
  have hfollows : Follows (Reading ⟨1⟩) (beforeScan.perform (.turn 0)) scanAgain := by
    decide +kernel
  have hagain : ((beforeScan.perform (.turn 0)).performAll scanAgain).ScanEnds ⟨1⟩ ⟨1⟩
      [(⟨⟨⟨1⟩, 0⟩, 0⟩, [7])] (.turn 1) := .inTurn rfl rfl rfl rfl rfl
  have hturn (w : World) (j : Nat) : w.Orderly (.turn j) := trivial
  obtain ⟨-, hsame⟩ := scans_again Catalog.sound_oneSlot make_onePage hbefore (hturn _ 0) hfirst
    (Reaches.refl.performAll hfollows) (hturn _ 1) hagain
  exact ⟨_, hfirst, hagain, hsame (by decide +kernel)⟩

/-- Two transactions have begun, and nobody has a lock on any page of the table: it has none. -/
def bothBegun : World := (ofPool noPages).performAll [.begin, .begin]

/-- After the first transaction has scanned the table, the other one inserts a tuple and commits. -/
def insertBetween : List Action :=
  [.call 1 (.insert ⟨2⟩ ⟨1⟩ [7]), .turn 0, .complete ⟨2⟩ true, .call 2 (.scan ⟨1⟩ ⟨1⟩)]

/-- A scan of a table without pages locks nothing, so that it may find more when it is repeated. -/
theorem empty_table_scan_differs :
    Reaches Orderly (ofPool noPages) bothBegun ∧
      bothBegun.Orderly (.call 0 (.scan ⟨1⟩ ⟨1⟩)) ∧
      bothBegun.ScanEnds ⟨1⟩ ⟨1⟩ [] (.call 0 (.scan ⟨1⟩ ⟨1⟩)) ∧
      Reaches (Reading ⟨1⟩) (bothBegun.perform (.call 0 (.scan ⟨1⟩ ⟨1⟩)))
        ((bothBegun.perform (.call 0 (.scan ⟨1⟩ ⟨1⟩))).performAll insertBetween) ∧
      ((bothBegun.perform (.call 0 (.scan ⟨1⟩ ⟨1⟩))).performAll insertBetween).ScanEnds ⟨1⟩ ⟨1⟩
        [(⟨⟨⟨1⟩, 0⟩, 0⟩, [7])] (.turn 0) := by
  have hbegun : Reaches Orderly (ofPool noPages) bothBegun := Reaches.refl.performAll (by decide)
  have hfollows : Follows (Reading ⟨1⟩) (bothBegun.perform (.call 0 (.scan ⟨1⟩ ⟨1⟩)))
      insertBetween := by
    decide +kernel
  exact ⟨hbegun, by decide, .atOnce rfl, Reaches.refl.performAll hfollows,
    .inTurn rfl rfl rfl rfl rfl⟩

end World

end PagePool
