import PagePool.Proofs.Log.Winners
import PagePool.Proofs.Pool.WriteAhead

namespace PagePool

namespace Pool

open LogRecord

/-- The log takes and forces what a flush of the page logs. -/
def FlushLogged (p : Pool) (q : PageId) : Prop :=
  ∀ page ∈ p.pages.get? q, ∀ owner ∈ page.dirtiedBy, (p.logFlush owner page).1 = .ok ()

/-- The same for flushes in order, up to the first failure. -/
def FlushesLogged (p : Pool) : List PageId → Prop
  | [] => True
  | q :: qs => p.FlushLogged q ∧ ((p.flush q).1 = .ok () → (p.flush q).2.FlushesLogged qs)

instance (p : Pool) (q : PageId) : Decidable (p.FlushLogged q) :=
  inferInstanceAs (Decidable (∀ page ∈ p.pages.get? q, ∀ owner ∈ page.dirtiedBy,
    (p.logFlush owner page).1 = .ok ()))

instance decidableFlushesLogged : (p : Pool) → (qs : List PageId) → Decidable (p.FlushesLogged qs)
  | _, [] => isTrue trivial
  | p, q :: qs =>
    have := decidableFlushesLogged (p.flush q).2 qs
    inferInstanceAs (Decidable (_ ∧ (_ → _)))

/-- The log in memory has these records, of which all but some aborts at the end are durable. The
changes that are still open are pending, and the committed bytes of each page are what the last
winner among its changes has made of it. -/
structure Recorded (initial : PageId → Bytes) (p : Pool) (l : Ledger) (rs : List LogRecord)
    (n : Nat) : Prop where
  medium : p.journal.medium = .memory ⟨rs, n⟩
  unforced : ∀ r ∈ rs.drop n, r.kind = .abort
  pending_of_open : ∀ {t q}, IsOpen t q rs → (l.pending t q).isSome = true
  committed : ∀ q, l.committed q = (winners q rs).getLastD (initial q)

/-- Changes are logged with the committed bytes as their before-images. -/
def Images (l : Ledger) (new : List LogRecord) : Prop :=
  ∀ t q before after, .update t q before after ∈ new → before = l.committed q

variable {initial : PageId → Bytes} {p p' : Pool} {l l' : Ledger} {rs new : List LogRecord} {n : Nat}
  {t u : TransactionId} {q : PageId} {page : Page}

theorem Images.nil : Images l [] := fun _ _ _ _ hmem => absurd hmem List.not_mem_nil

/-! What a commit logs: changes of pages, each of which wins, and its own record. -/

theorem firstEnd_changes (pages : List Page) :
    firstEnd u (pages.map (updateRecord t) ++ [.commit t]) =
      if t = u then some (.commit t) else none := by
  induction pages with
  | nil => by_cases h : t = u <;> simp [firstEnd, ends, h]
  | cons page pages ih => rwa [List.map_cons, List.cons_append, updateRecord, firstEnd_update]

theorem not_isOpen_changes (pages : List Page) :
    ¬IsOpen u q (pages.map (updateRecord t) ++ [.commit t]) := by
  induction pages with
  | nil => exact id
  | cons page pages ih =>
    rintro (⟨rfl, -, hend⟩ | hopen)
    · cases hend.symm.trans ((firstEnd_changes pages).trans (if_pos rfl))
    · exact ih hopen

theorem winners_changes (pages : List Page) :
    winners q (pages.map (updateRecord t) ++ [.commit t]) =
      (pages.filter fun page => page.id = q).map Page.data := by
  induction pages with
  | nil => rfl
  | cons page pages ih =>
    have hend : firstEnd t (pages.map (updateRecord t) ++ [.commit t]) = some (.commit t) := by
      rw [firstEnd_changes, if_pos rfl]
    simp only [List.map_cons, List.cons_append, updateRecord, winners] at ih hend ⊢
    by_cases hid : page.id = q
    · rw [if_pos ⟨hid, hend⟩, ih]
      simp [hid]
    · rw [if_neg fun hwins => hid hwins.1, ih]
      simp [hid]

/-- The commit of a transaction makes a winner of what it has set a page to, and no other of a page
that it has not set. -/
theorem winners_commitRecords (h : p.Agrees l) (t : TransactionId) (q : PageId) :
    l.pending t q = none ∧ winners q (p.commitRecords t) = [] ∨
      ∃ d others, l.pending t q = some d ∧ winners q (p.commitRecords t) = others ++ [d] := by
  rw [commitRecords, winners_changes]
  rcases List.eq_nil_or_concat' ((p.dirtiedBy t).filter fun page => page.id = q) with
    hnil | ⟨pages, page, hlast⟩
  · refine .inl ⟨h.pending_eq_none_of_not_dirty fun hq => ?_, by rw [hnil]; rfl⟩
    obtain ⟨page, hpage, hid⟩ := List.mem_map.1 hq
    have hmem : page ∈ (p.dirtiedBy t).filter fun page => page.id = q :=
      List.mem_filter.2 ⟨hpage, decide_eq_true hid⟩
    rw [hnil] at hmem
    contradiction
  · refine .inr ⟨page.data, pages.map Page.data, ?_, by rw [hlast, List.map_append]; rfl⟩
    have hmem : page ∈ (p.dirtiedBy t).filter fun page => page.id = q := by
      rw [hlast]
      exact List.mem_append_right pages (List.mem_singleton.2 rfl)
    obtain ⟨hpage, hid⟩ := List.mem_filter.1 hmem
    obtain ⟨hq, ht⟩ := (mem_dirtiedBy h.resident).1 hpage
    rw [of_decide_eq_true hid] at hq
    exact h.pending_iff.2 ⟨page, hq, ht, rfl⟩

/-- An abort that the log does not refuse is logged after all that was there. -/
theorem journal_abort (ht : p.isActive t = true) (hlog : p.journal.refuses (.abort t) = false) :
    (p.abort t).2.journal = { p.journal with medium := p.journal.medium.append (.abort t) } := by
  have hrolled := journal_rollBack_all p (p.dirtiedBy t)
  have happend : (forEachPage rollBack p (p.dirtiedBy t)).2.journal.append (.abort t) =
      .ok { p.journal with medium := p.journal.medium.append (.abort t) } := by
    rw [hrolled, Journal.append, hlog]
    rfl
  simp only [abort, ht, if_true, happend]
  rfl

namespace Recorded

/-- A step that logs and commits nothing. -/
theorem of_silent (h : Recorded initial p l rs n) (hjournal : p'.journal.medium = p.journal.medium)
    (hcommitted : l'.committed = l.committed)
    (hpending : ∀ {t q}, (l.pending t q).isSome = true → (l'.pending t q).isSome = true) :
    ∃ new n', Recorded initial p' l' (rs ++ new) n' ∧ Images l new := by
  refine ⟨[], n, ?_, .nil⟩
  rw [List.append_nil]
  exact ⟨hjournal.trans h.medium, h.unforced, fun ho => hpending (h.pending_of_open ho),
    fun q => (congrFun hcommitted q).trans (h.committed q)⟩

/-- The durable records have the same winners. -/
theorem winners_durable (h : Recorded initial p l rs n) (q : PageId) :
    winners q (rs.take n) = winners q rs := by
  rw [← winners_append_aborts h.unforced, List.take_append_drop]

theorem flush (h : Recorded initial p l rs n) (ha : p.Agrees l) (hlog : p.FlushLogged q) :
    ∃ new n', Recorded initial (p.flush q).2 l (rs ++ new) n' ∧ Images l new := by
  cases hq : p.pages.get? q with
  | none =>
    have hsame : (p.flush q).2 = p := by simp only [Pool.flush, hq]
    exact h.of_silent (by rw [hsame]) rfl id
  | some page =>
    have hjournal := journal_flush hq
    cases hown : page.dirtiedBy with
    | none =>
      rw [hown] at hjournal
      exact h.of_silent (congrArg Journal.medium hjournal) rfl id
    | some owner =>
      have hactive := (ha.owner hq hown).2
      have hlogged := hlog page hq owner hown
      simp only [hown, logFlush_eq_log, flushRecords, if_pos hactive] at hjournal hlogged
      have hid := ha.resident.id_eq hq
      have hchange : (l.pending owner q).isSome = true :=
        Option.isSome_iff_exists.2 ⟨_, ha.pending_iff.2 ⟨page, hq, hown, rfl⟩⟩
      refine ⟨[updateRecord owner page], _,
        ⟨(congrArg Journal.medium hjournal).trans (Journal.medium_log h.medium hlogged), ?_, ?_, ?_⟩,
        ?_⟩
      · simp
      · intro t r hopen
        rcases isOpen_append hopen with ⟨hold, -⟩ | ⟨rfl, rfl, -⟩ | hnone
        · exact h.pending_of_open hold
        · rwa [hid]
        · exact hnone.elim
      · intro r
        have hends (u : TransactionId) : firstEnd u [updateRecord owner page] = none :=
          firstEnd_update
        rw [winners_append, h.committed r]
        · simp [updateRecord, winners, firstEnd]
        · intro u _
          rw [hends]
          exact (Option.some_ne_none _).symm
      · intro t r before after hmem
        obtain ⟨-, rfl, rfl, -⟩ := LogRecord.update.inj (List.mem_singleton.1 hmem)
        rw [hid]
        exact ha.before_eq hq

theorem flushEach (h : Recorded initial p l rs n) (ha : p.Agrees l) {qs : List PageId}
    (hlog : p.FlushesLogged qs) :
    ∃ new n', Recorded initial (p.flushEach qs).2 l (rs ++ new) n' ∧ Images l new := by
  induction qs generalizing p rs n with
  | nil => exact h.of_silent rfl rfl id
  | cons q qs ih =>
    obtain ⟨hfirst, hrest⟩ := hlog
    obtain ⟨new, n', hflushed, himages⟩ := h.flush ha hfirst
    have hagrees := (ha.flush q).1
    unfold Pool.flushEach
    rcases hf : p.flush q with ⟨result, p'⟩
    rw [hf] at hflushed hagrees hrest
    cases result with
    | error e => exact ⟨new, n', hflushed, himages⟩
    | ok u =>
      obtain ⟨newer, n'', hlater, himages'⟩ := ih hflushed hagrees (hrest rfl)
      refine ⟨new ++ newer, n'', by rwa [← List.append_assoc], ?_⟩
      intro t r before after hmem
      exact (List.mem_append.1 hmem).elim (himages t r before after) (himages' t r before after)

/-- A commit makes winners of all the changes of its transaction; the last one of each page is what
it has committed. -/
theorem commit (h : Recorded initial p l rs n) (ha : p.Agrees l)
    (hlog : (p.logCommit t).1 = .ok ()) :
    ∃ n', Recorded initial (p.commit t).2 (l.commit t) (rs ++ p.commitRecords t) n' ∧
      Images l (p.commitRecords t) := by
  have hjournal := journal_commit p t
  rw [logCommit_eq_log] at hlog hjournal
  refine ⟨_, ⟨(congrArg Journal.medium hjournal).trans (Journal.medium_log h.medium hlog), ?_, ?_,
    ?_⟩, ?_⟩
  · simp
  · intro u q hopen
    rcases isOpen_append hopen with ⟨hold, hend⟩ | hnew
    · -- the changes of the transaction itself are not open any more
      have hne : u ≠ t := by
        rintro rfl
        cases hend.symm.trans ((firstEnd_changes _).trans (if_pos rfl))
      simp only [Ledger.commit, if_neg hne]
      exact h.pending_of_open hold
    · exact absurd hnew (not_isOpen_changes _)
  · intro q
    have hcommitted : (l.commit t).committed q = l.view t q := rfl
    rw [hcommitted]
    rcases winners_commitRecords ha t q with ⟨hclean, hnil⟩ | ⟨d, others, hset, hlast⟩
    · -- it has not set this page, and no other transaction ends here
      rw [winners_append, hnil, List.append_nil, Ledger.view_eq_of_not_pending hclean]
      · exact h.committed q
      · intro u hopen hend
        rw [commitRecords, firstEnd_changes] at hend
        split at hend
        · rename_i htu
          subst htu
          have hset := h.pending_of_open hopen
          rw [hclean] at hset
          contradiction
        · contradiction
    · obtain ⟨earlier, hearlier⟩ := winners_suffix q rs (p.commitRecords t)
      rw [← hearlier, hlast, Ledger.view_eq_of_pending hset, ← List.append_assoc,
        List.getLastD_concat]
  · intro u r before after hmem
    rcases List.mem_append.1 hmem with hmem | hmem
    · obtain ⟨page, hpage, heq⟩ := List.mem_map.1 hmem
      obtain ⟨-, rfl, rfl, -⟩ := LogRecord.update.inj heq
      exact ha.before_eq ((mem_dirtiedBy ha.resident).1 hpage).1
    · cases List.mem_singleton.1 hmem

/-- An abort ends the open changes of its transaction, and none of them wins. -/
theorem abort (h : Recorded initial p l rs n) (ha : p.Agrees l)
    (hlog : p.isActive t = true → p.journal.refuses (.abort t) = false) :
    ∃ new n', Recorded initial (p.abort t).2 (l.abort t) (rs ++ new) n' ∧ Images l new := by
  by_cases ht : p.isActive t = true
  · refine ⟨[.abort t], n, ⟨?_, ?_, ?_, ?_⟩, ?_⟩
    · rw [journal_abort ht (hlog ht), h.medium]
      rfl
    · intro r hr
      rw [List.drop_append] at hr
      rcases List.mem_append.1 hr with hr | hr
      · exact h.unforced r hr
      · rw [List.mem_singleton.1 (List.mem_of_mem_drop hr)]
        rfl
    · intro u q hopen
      rcases isOpen_append hopen with ⟨hold, hend⟩ | hnew
      · have hne : u ≠ t := by
          rintro rfl
          simp [firstEnd, ends] at hend
        simp only [Ledger.abort, if_neg hne]
        exact h.pending_of_open hold
      · exact hnew.elim
    · intro q
      rw [winners_append_aborts]
      · exact h.committed q
      · intro r hr
        rw [List.mem_singleton.1 hr]
        rfl
    · intro u q before after hmem
      cases List.mem_singleton.1 hmem
  · rw [Ledger.abort_eq_self (ha.pending_eq_none_of_inactive ht)]
    refine h.of_silent ?_ rfl id
    simp only [Pool.abort, ht]
    rfl

theorem complete (h : Recorded initial p l rs n) (ha : p.Agrees l) {commit : Bool}
    (hcommit : commit = true → (p.logCommit t).1 = .ok ())
    (habort : commit = false → p.isActive t = true → p.journal.refuses (.abort t) = false) :
    ∃ new n', Recorded initial (p.complete t commit).2 (p.completed l t commit) (rs ++ new) n' ∧
      Images l new := by
  cases commit with
  | true =>
    obtain ⟨n', hdone, himages⟩ := h.commit ha (hcommit rfl)
    refine ⟨_, n', ?_, himages⟩
    simp only [completed, if_true, hcommit rfl]
    exact hdone
  | false => exact h.abort ha (habort rfl)

end Recorded

end Pool

namespace World

variable {w : World} {a : Action} {initial : PageId → Bytes} {rs : List LogRecord} {n : Nat}

/-- Nothing that the step logs is refused, and no force fails. -/
def LogWorks (w : World) : Action → Prop
  | .complete t commit =>
    (commit = true → (w.pool.logCommit t).1 = .ok ()) ∧
      (commit = false → w.pool.isActive t = true → w.pool.journal.refuses (.abort t) = false)
  | .flush q => w.pool.FlushLogged q
  | .flushAll => w.pool.FlushesLogged w.pool.pages.keys
  | .flushOf t => w.pool.FlushesLogged (w.pool.dirtyPages t)
  | _ => True

/-- Steps of orderly callers while the log works. -/
def Logged (w : World) (a : Action) : Prop := w.Orderly a ∧ w.LogWorks a

instance (w : World) : (a : Action) → Decidable (w.LogWorks a)
  | .complete _ _ => inferInstanceAs (Decidable (_ ∧ _))
  | .flush q => inferInstanceAs (Decidable (w.pool.FlushLogged q))
  | .flushAll => inferInstanceAs (Decidable (w.pool.FlushesLogged _))
  | .flushOf _ => inferInstanceAs (Decidable (w.pool.FlushesLogged _))
  | .begin => isTrue trivial
  | .call _ _ => isTrue trivial
  | .turn _ => isTrue trivial
  | .discard _ => isTrue trivial
  | .releaseLock _ _ => isTrue trivial
  | .failStore _ _ => isTrue trivial
  | .failLog _ _ => isTrue trivial

instance (w : World) (a : Action) : Decidable (w.Logged a) :=
  inferInstanceAs (Decidable (_ ∧ _))

theorem recorded_perform (hintact : w.Intact) (hw : w.Consistent)
    (h : Pool.Recorded initial w.pool w.ledger rs n) (ha : w.Logged a) :
    ∃ new n', Pool.Recorded initial (w.perform a).pool (w.perform a).ledger (rs ++ new) n' ∧
      Pool.Images w.ledger new := by
  obtain ⟨horderly, hlog⟩ := ha
  have hledger := ledger_perform w a
  cases a with
  | turn i =>
    obtain ⟨u, hadvances⟩ := advances_turn hw i
    exact h.of_silent (congrArg Journal.medium (hintact.turn i).2.journal_eq) hadvances.committed_eq
      hadvances.pending_stays
  | complete t commit => exact h.complete hw.agrees hlog.1 hlog.2
  | flush q => exact h.flush hw.agrees hlog
  | flushAll => exact h.flushEach hw.agrees hlog
  | flushOf t => exact h.flushEach hw.agrees hlog
  | discard q => exact horderly.elim
  | call step c =>
    exact h.of_silent (congrArg Journal.medium (hintact.issue step c).2.journal_eq)
      (congrArg Ledger.committed hledger) (by rw [hledger]; exact id)
  | failStore table faults =>
    exact h.of_silent (congrArg Journal.medium (hintact.failStore table faults).2.journal_eq)
      (congrArg Ledger.committed hledger) (by rw [hledger]; exact id)
  | _ => exact h.of_silent rfl rfl id

theorem recorded_ofPool {p : Pool} (hm : p.journal.medium = .memory .empty) :
    Pool.Recorded (Ledger.ofCatalog p.catalog).committed p (.ofCatalog p.catalog) [] 0 :=
  ⟨hm, nofun, nofun, fun _ => rfl⟩

theorem Reaches.recorded {start : World} (hr : Reaches Logged start w) (hi : start.Intact)
    (hc : start.Consistent) (h : Pool.Recorded initial start.pool start.ledger rs n) :
    w.Intact ∧ w.Consistent ∧ ∃ rs n, Pool.Recorded initial w.pool w.ledger rs n := by
  induction hr with
  | refl => exact ⟨hi, hc, rs, n, h⟩
  | step _ ha ih =>
    obtain ⟨hintact, hconsistent, rs, n, h⟩ := ih
    obtain ⟨new, n', hnext, -⟩ := recorded_perform hintact hconsistent h ha
    exact ⟨(hintact.perform _).1, hconsistent.perform ha.1, _, n', hnext⟩

/-- If nothing that is logged in memory is refused and no force fails, the durable log tells what is
committed, whatever pages the store refuses: the bytes of a page are what the last winner among its
durable changes has made of it, or else what it had at first, which for a new page is zeros. And
every change is logged with the bytes as its before-image that the page has committed by then. -/
theorem durable_log_tells_committed {p : Pool} {capacity : Nat} {catalog : Catalog}
    {journal : Journal} (hs : catalog.Sound)
    (hp : Pool.make capacity catalog journal = .ok p) (hm : journal.medium = .memory .empty)
    (hw : Reaches Logged (ofPool p) w) :
    ∃ log, w.pool.journal.medium = .memory log ∧
      (∀ q, w.ledger.committed q = (LogRecord.winners q log.durableRecords).getLastD
        ((catalog.stored? q).getD (Bytes.zeros catalog.pageSize))) ∧
      ∀ a, w.Logged a → ∃ log' new, (w.perform a).pool.journal.medium = .memory log' ∧
        log'.records = log.records ++ new ∧
        ∀ t q before after, .update t q before after ∈ new → before = w.ledger.committed q := by
  have hintact : (ofPool p).Intact := intact_ofPool hs hp fun log hfile => by
    rw [hm] at hfile
    contradiction
  have hconsistent := consistent_ofPool hs hp
  obtain ⟨-, rfl⟩ := Pool.make_eq_ok hp
  obtain ⟨hintact, hconsistent, rs, n, h⟩ :=
    hw.recorded hintact hconsistent (recorded_ofPool hm)
  refine ⟨⟨rs, n⟩, h.medium, fun q => ?_, fun a ha => ?_⟩
  · rw [show (⟨rs, n⟩ : MemoryLog).durableRecords = rs.take n from rfl, h.winners_durable]
    exact h.committed q
  · obtain ⟨new, n', hnext, himages⟩ := recorded_perform hintact hconsistent h ha
    exact ⟨_, new, hnext.medium, rfl, himages⟩

/-- A first change is flushed and taken back, and the page is changed again, flushed and committed. -/
def flushAbortCommit : List Action :=
  [.begin, .call 0 (.insert ⟨1⟩ ⟨1⟩ [7]), .turn 0, .flushAll, .complete ⟨1⟩ false,
    .call 1 (.insert ⟨2⟩ ⟨1⟩ [9]), .turn 0, .flushAll, .complete ⟨2⟩ true]

theorem commit_wins_over_abort :
    ∃ log, ((ofPool onePage).performAll flushAbortCommit).pool.journal.medium = .memory log ∧
      LogRecord.winners ⟨⟨1⟩, 0⟩ log.durableRecords = [[1, 9], [1, 9]] ∧
      ((ofPool onePage).performAll flushAbortCommit).ledger.committed ⟨⟨1⟩, 0⟩ = [1, 9] := by
  have hw : Reaches Logged (ofPool onePage) ((ofPool onePage).performAll flushAbortCommit) :=
    Reaches.refl.performAll (by decide +kernel)
  have hmedium : ((ofPool onePage).performAll flushAbortCommit).pool.journal.medium =
      .memory ⟨[.update ⟨1⟩ ⟨⟨1⟩, 0⟩ [0, 0] [1, 7], .abort ⟨1⟩,
        .update ⟨2⟩ ⟨⟨1⟩, 0⟩ [0, 0] [1, 9], .update ⟨2⟩ ⟨⟨1⟩, 0⟩ [0, 0] [1, 9],
        .commit ⟨2⟩], 5⟩ := by decide +kernel
  obtain ⟨log, hlog, hcommitted, -⟩ :=
    durable_log_tells_committed Catalog.sound_oneSlot make_onePage rfl hw
  obtain rfl := LogMedium.memory.inj (hmedium.symm.trans hlog)
  refine ⟨_, hmedium, rfl, ?_⟩
  rw [hcommitted]
  rfl

end World

end PagePool
