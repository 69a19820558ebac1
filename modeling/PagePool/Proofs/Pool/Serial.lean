import PagePool.Proofs.Pool.Deeds

namespace PagePool

/-- What the transactions have done: those under way, to the pages whose locks they have held ever
since, and those that have committed, in the order of their commits. -/
structure History where
  unfinished : TransactionId → List Deed
  committed : List (TransactionId × List Deed)

namespace History

def empty : History := ⟨fun _ => [], []⟩

/-- What was done to a page is forgotten with its lock, but for what has been committed. -/
def retain (h : History) (locks : LockTable) : History :=
  { h with unfinished := fun t => (h.unfinished t).filter fun d => locks.holds t d.page }

end History

namespace World

/-- What a transaction does in a turn, if it is the one whose call has its turn. -/
def deeds (w : World) (i : Nat) (t : TransactionId) : List Deed :=
  match w.session.pending[i]? with
  | none => []
  | some p =>
    if p.call.request.tid = t then
      (w.pool.handed? p.call).toList.map (fun page => .read p.call.request.page page.data) ++
        ((w.turn i).1.map Prod.snd).toList.flatMap (p.call.edits w.pool.catalog.layout?)
    else []

/-- Whether a completion makes an end of the transaction: an abort does, and a commit whose log was
forced. -/
def Ends (w : World) (t : TransactionId) (commit : Bool) : Prop :=
  commit = true → (w.pool.logCommit t).1 = .ok ()

/-- What has been done after a step: a turn adds deeds, and a commit that counts closes a list of
them. -/
def done (w : World) (h : History) : Action → History
  | .turn i => { h with unfinished := fun t => h.unfinished t ++ w.deeds i t }
  | .complete t true =>
    match (w.pool.logCommit t).1 with
    | .ok _ => { h with committed := h.committed ++ [(t, h.unfinished t)] }
    | .error _ => h
  | _ => h

def note (w : World) (h : History) (a : Action) : History :=
  (w.done h a).retain (w.perform a).pool.locks

/-- A fetch of a page ends in this turn, and hands the page to its transaction. -/
def Fetches (w : World) (i : Nat) (t : TransactionId) (q : PageId) (page : Page) : Prop :=
  ∃ call step, w.session.pending[i]? = some call ∧ call.call.task = .fetch ∧
    call.call.request.tid = t ∧ call.call.request.page = q ∧
    (w.turn i).1 = some (step, .ok (.page page))

/-- Steps of orderly callers after which a transaction still holds its lock on a page. -/
def Keeps (t : TransactionId) (q : PageId) (w : World) (a : Action) : Prop :=
  w.Orderly a ∧ (w.perform a).pool.locks.holds t q = true

instance (t : TransactionId) (q : PageId) (w : World) (a : Action) : Decidable (Keeps t q w a) :=
  inferInstanceAs (Decidable (_ ∧ _))

/-- What has been done can be done again: all that is committed, one transaction after the other,
and after it what any one transaction under way has done. -/
structure Noted (initial : PageId → Bytes) (w : World) (h : History) : Prop where
  committed : Deed.redoAll initial (h.committed.flatMap Prod.snd) = some w.ledger.committed
  unfinished : ∀ t, Deed.redoAll w.ledger.committed (h.unfinished t) = some (w.ledger.view t)
  pending : ∀ t, ∀ d ∈ h.unfinished t, d.isEdit = true →
    (w.ledger.pending t d.page).isSome = true
  held : ∀ t, ∀ d ∈ h.unfinished t, w.pool.locks.holds t d.page = true

variable {w : World} {h : History} {i : Nat} {t u : TransactionId} {q : PageId} {page : Page}
  {call : Pending Call} {initial : PageId → Bytes} {a : Action}

theorem deeds_of_pending (hi : w.session.pending[i]? = some call)
    (ht : call.call.request.tid = t) :
    w.deeds i t =
      (w.pool.handed? call.call).toList.map (fun page => .read call.call.request.page page.data) ++
        ((w.turn i).1.map Prod.snd).toList.flatMap (call.call.edits w.pool.catalog.layout?) := by
  simp only [deeds, hi, ht, if_true]

theorem ledger_of_not_ends {commit : Bool} (h : ¬w.Ends t commit) :
    (w.perform (.complete t commit)).ledger = w.ledger := by
  obtain ⟨rfl, hlog⟩ := Classical.not_imp.1 h
  simp only [perform, Pool.completed, if_true]
  cases hfailed : (w.pool.logCommit t).1 with
  | ok u => exact absurd hfailed hlog
  | error e => rfl

namespace Consistent

/-- What is done in a turn leads from what the transaction has found to what it finds after it. -/
theorem redoAll_deeds (hw : w.Consistent) (i : Nat) (t : TransactionId) :
    Deed.redoAll (w.ledger.view t) (w.deeds i t) = some ((w.turn i).2.ledger.view t) := by
  cases hi : w.session.pending[i]? with
  | none =>
    simp only [deeds, hi, turn_of_absent hi]
    rfl
  | some call =>
    have hcases := turn_cases hw hi
    by_cases ht : call.call.request.tid = t
    · rw [deeds_of_pending hi ht]
      subst ht
      refine Deed.redoAll_append (k := w.ledger.view call.call.request.tid) ?_ ?_
      · cases hh : w.pool.handed? call.call with
        | none => rfl
        | some page =>
          obtain rfl := Pool.handed_eq hw.agrees (hw.waits call (List.mem_of_getElem? hi)) hh
          exact Deed.redoAll_read.2 ⟨rfl, rfl⟩
      · rcases hcases with ⟨c', p', hturn, -⟩ | ⟨result, p', hturn, -⟩
        · rw [hturn]
          rfl
        · rw [hturn]
          simp only [Option.map_some, Option.toList_some, List.flatMap_singleton]
          exact Ledger.redoAll_edits
    · have hsame : (w.turn i).2.ledger.view t = w.ledger.view t := by
        funext q
        rcases hcases with ⟨c', p', hturn, -, -, -, ha⟩ | ⟨result, p', hturn, -, ha⟩
        · rw [hturn]
        · rw [hturn]
          exact ha.view_eq (Ne.symm ht)
      simp only [deeds, hi, if_neg ht, hsame]
      rfl

theorem pending_of_deeds (hw : w.Consistent) {d : Deed} (hd : d ∈ w.deeds i t)
    (hedit : d.isEdit = true) : ((w.turn i).2.ledger.pending t d.page).isSome = true := by
  cases hi : w.session.pending[i]? with
  | none =>
    simp only [deeds, hi] at hd
    contradiction
  | some call =>
    by_cases ht : call.call.request.tid = t
    · rw [deeds_of_pending hi ht] at hd
      subst ht
      rcases List.mem_append.1 hd with hread | hchange
      · obtain ⟨page, -, rfl⟩ := List.mem_map.1 hread
        contradiction
      · obtain ⟨result, hresult, hd⟩ := List.mem_flatMap.1 hchange
        rw [Option.mem_toList, Option.map_eq_some_iff] at hresult
        obtain ⟨⟨step, found⟩, hturn, rfl⟩ := hresult
        -- only a call that has changed its page has deeds of this kind
        obtain ⟨rfl, layout, rfl⟩ := Call.mem_edits hd
        obtain ⟨hrun, hledger⟩ := runCall_of_turn hi hturn
        rw [hledger]
        exact Pool.pending_of_done hw.agrees (hw.waits call (List.mem_of_getElem? hi)) hrun
    · simp only [deeds, hi, if_neg ht] at hd
      contradiction

/-- Nobody commits anything on a page while another transaction keeps its lock. -/
theorem committed_eq (hw : w.Consistent) (hheld : w.pool.locks.holds t q = true)
    (ha : Keeps t q w a) : (w.perform a).ledger.committed q = w.ledger.committed q := by
  obtain ⟨-, hkept⟩ := ha
  cases a with
  | turn i =>
    obtain ⟨u, hadvances⟩ := advances_turn hw i
    exact congrFun hadvances.committed_eq q
  | complete u commit =>
    by_cases hu : u = t
    · subst hu
      by_cases hends : w.Ends u commit
      · rw [show (w.perform (.complete u commit)).pool.locks.holds u q = false from
          Pool.holds_complete hw.agrees hends] at hkept
        contradiction
      · exact congrArg (fun l => l.committed q) (ledger_of_not_ends hends)
    · exact Pool.committed_completed commit (hw.agrees.pending_eq_none hheld (Ne.symm hu))
  | _ => exact congrArg (fun l => l.committed q) (ledger_perform w _)

/-- A fetch that succeeds hands out what its transaction finds, and leaves it the lock. -/
theorem fetches (hw : w.Consistent) (hf : w.Fetches i t q page) :
    page = w.ledger.page t q ∧ .read q page.data ∈ w.deeds i t ∧
      (w.turn i).2.pool.locks.holds t q = true := by
  obtain ⟨call, step, hi, htask, ht, rfl, hturn⟩ := hf
  obtain ⟨hrun, -⟩ := runCall_of_turn hi hturn
  have hcall : call.call = ⟨call.call.request, .fetch⟩ := by rw [← htask]
  rw [hcall] at hrun
  obtain ⟨hhanded, hgranted⟩ := Pool.fetch_eq_ok hrun
  rw [← hcall] at hhanded
  have hpage := Pool.handed_eq hw.agrees (hw.waits call (List.mem_of_getElem? hi)) hhanded
  have hholds := hw.agrees.locks.holds_of_granted hgranted
  rw [ht] at hpage hholds
  refine ⟨hpage, ?_, hholds⟩
  rw [deeds_of_pending hi ht, hhanded]
  exact List.mem_append_left _ (List.mem_singleton.2 rfl)

end Consistent

namespace Noted

/-- What was done to pages that are not locked any more may be forgotten, and all of it once its
transaction has no locks at all. -/
theorem of_done {w' : World} {done : History} (hw' : w'.Consistent)
    (hcommitted : Deed.redoAll initial (done.committed.flatMap Prod.snd) =
      some w'.ledger.committed)
    (hunfinished : ∀ t, (∀ q, w'.pool.locks.holds t q = false) ∨
      Deed.redoAll w'.ledger.committed (done.unfinished t) = some (w'.ledger.view t) ∧
      ∀ d ∈ done.unfinished t, d.isEdit = true → (w'.ledger.pending t d.page).isSome = true) :
    Noted initial w' (done.retain w'.pool.locks) := by
  refine ⟨hcommitted, fun t => ?_, fun t d hd hedit => ?_, fun t d hd => (List.mem_filter.1 hd).2⟩
  · rcases hunfinished t with hfree | ⟨hredo, hpending⟩
    · have hnone : (done.retain w'.pool.locks).unfinished t = [] := by
        simp [History.retain, hfree]
      have hview : w'.ledger.view t = w'.ledger.committed :=
        funext fun q => Ledger.view_eq_of_not_pending (hw'.agrees.pending_eq_none_of_free (hfree q))
      rw [hnone, hview]
      rfl
    · exact Deed.redoAll_filter hredo fun d hd hedit =>
        hw'.agrees.holds_of_pending (hpending d hd hedit)
  · obtain ⟨hd, hheld⟩ := List.mem_filter.1 hd
    rcases hunfinished t with hfree | ⟨-, hpending⟩
    · rw [hfree] at hheld
      contradiction
    · exact hpending d hd hedit

/-- Steps that leave the ledger as it is add nothing. -/
theorem of_ledger_eq (hn : Noted initial w h) {w' : World} (hw' : w'.Consistent)
    (hledger : w'.ledger = w.ledger) :
    Noted initial w' (h.retain w'.pool.locks) := by
  refine .of_done hw' ?_ fun t => .inr ?_
  · rw [hledger]
    exact hn.committed
  · rw [hledger]
    exact ⟨hn.unfinished t, hn.pending t⟩

theorem turn (hn : Noted initial w h) (hw : w.Consistent) (i : Nat) :
    Noted initial (w.perform (.turn i)) (w.note h (.turn i)) := by
  obtain ⟨u, hadvances⟩ := advances_turn hw i
  have hcommitted : (w.perform (.turn i)).ledger.committed = w.ledger.committed :=
    hadvances.committed_eq
  refine .of_done (hw.turn i) ?_ fun t => .inr ⟨?_, fun d hd hedit => ?_⟩
  · rw [hcommitted]
    exact hn.committed
  · rw [hcommitted]
    exact Deed.redoAll_append (hn.unfinished t) (hw.redoAll_deeds i t)
  · rcases List.mem_append.1 hd with hd | hd
    · exact hadvances.pending_stays (hn.pending t d hd hedit)
    · exact hw.pending_of_deeds hd hedit

/-- The other transactions hold the pages that they have read, so that a completion commits nothing
on them. -/
theorem unfinished_completed (hn : Noted initial w h) (hw : w.Consistent) (commit : Bool)
    (hu : u ≠ t) :
    Deed.redoAll (w.pool.completed w.ledger t commit).committed (h.unfinished u) =
      some ((w.pool.completed w.ledger t commit).view u) := by
  refine Deed.redoAll_frame (hn.unfinished u) fun q => ?_
  by_cases hheld : w.pool.locks.holds u q = true
  · exact .inl ⟨Pool.committed_completed commit (hw.agrees.pending_eq_none hheld hu),
      Pool.view_completed hw.agrees commit hu hheld⟩
  · refine .inr ⟨fun hq => ?_, ?_⟩
    · obtain ⟨d, hd, rfl⟩ := List.mem_map.1 hq
      exact hheld (hn.held u d hd)
    · refine Ledger.view_eq_of_not_pending ?_
      rw [Pool.pending_completed commit hu]
      exact hw.agrees.pending_eq_none_of_free (Bool.eq_false_iff.2 hheld)

theorem complete (hn : Noted initial w h) (hw : w.Consistent) (hidle : w.Idle t) (commit : Bool) :
    Noted initial (w.perform (.complete t commit)) (w.note h (.complete t commit)) := by
  have hw' := hw.complete hidle commit
  by_cases hends : w.Ends t commit
  · -- the transaction has lost its locks, and the others have what they had
    have hall (u : TransactionId) :
        (∀ q, (w.perform (.complete t commit)).pool.locks.holds u q = false) ∨
        Deed.redoAll (w.perform (.complete t commit)).ledger.committed (h.unfinished u) =
          some ((w.perform (.complete t commit)).ledger.view u) ∧
        ∀ d ∈ h.unfinished u, d.isEdit = true →
          ((w.perform (.complete t commit)).ledger.pending u d.page).isSome = true := by
      by_cases hu : u = t
      · subst hu
        exact .inl fun q => Pool.holds_complete hw.agrees hends
      · refine .inr ⟨hn.unfinished_completed hw commit hu, fun d hd hedit => ?_⟩
        rw [show (w.perform (.complete t commit)).ledger.pending u d.page = _ from
          Pool.pending_completed commit hu]
        exact hn.pending u d hd hedit
    cases commit with
    | true =>
      have hdone : w.done h (.complete t true) =
          { h with committed := h.committed ++ [(t, h.unfinished t)] } := by
        simp only [done, hends rfl]
      rw [note, hdone]
      refine .of_done hw' ?_ hall
      rw [List.flatMap_append, List.flatMap_singleton]
      have hcommit : (w.perform (.complete t true)).ledger.committed = w.ledger.view t := by
        simp only [perform, Pool.completed, hends rfl]
        rfl
      rw [hcommit]
      exact Deed.redoAll_append hn.committed (hn.unfinished t)
    | false => exact .of_done hw' hn.committed hall
  · have hnote := hn.of_ledger_eq hw' (ledger_of_not_ends hends)
    unfold Ends at hends
    obtain ⟨rfl, hlog⟩ := Classical.not_imp.1 hends
    cases hfailed : (w.pool.logCommit t).1 with
    | ok u => exact absurd hfailed hlog
    | error e =>
      simp only [note, done, hfailed]
      exact hnote

/-- Every orderly step keeps the account true. -/
theorem perform (hn : Noted initial w h) (hw : w.Consistent) (ha : w.Orderly a) :
    Noted initial (w.perform a) (w.note h a) := by
  have hw' := hw.perform ha
  cases a with
  | turn i => exact hn.turn hw i
  | complete t commit => exact hn.complete hw ha commit
  | _ => exact hn.of_ledger_eq hw' (ledger_perform w _)

end Noted

theorem noted_ofPool (p : Pool) :
    Noted (Ledger.ofCatalog p.catalog).committed (ofPool p) .empty :=
  ⟨rfl, fun _ => rfl, nofun, nofun⟩

theorem Tallies.noted {start : World} {begun : History}
    (hr : Tallies note Orderly start begun w h) (hstart : start.Consistent)
    (hbegun : Noted initial start begun) : w.Consistent ∧ Noted initial w h := by
  induction hr with
  | refl => exact ⟨hstart, hbegun⟩
  | step _ ha ih =>
    obtain ⟨hw, hn⟩ := ih
    exact ⟨hw.perform ha, hn.perform hw ha⟩

theorem mem_done {d : Deed} (hd : d ∈ h.unfinished t) (a : Action) :
    d ∈ (w.done h a).unfinished t := by
  unfold World.done
  split
  · exact List.mem_append_left _ hd
  · split <;> exact hd
  · exact hd

/-- While a transaction keeps its lock on a page, nothing is committed there, and what it has done to
the page is not forgotten. -/
theorem Tallies.remembers {start : World} {begun : History}
    (hr : Tallies note (Keeps t q) start begun w h) (hstart : start.Consistent)
    (hheld : start.pool.locks.holds t q = true) {d : Deed} (hd : d ∈ begun.unfinished t)
    (hpage : d.page = q) :
    w.Consistent ∧ w.pool.locks.holds t q = true ∧
      w.ledger.committed q = start.ledger.committed q ∧ d ∈ h.unfinished t := by
  induction hr with
  | refl => exact ⟨hstart, hheld, rfl, hd⟩
  | step _ ha ih =>
    obtain ⟨hw, hheld, hcommitted, hd⟩ := ih
    refine ⟨hw.perform ha.1, ha.2, (hw.committed_eq hheld ha).trans hcommitted, ?_⟩
    refine List.mem_filter.2 ⟨mem_done hd _, ?_⟩
    rw [hpage]
    exact ha.2

/-- A transaction that is handed a page on which it has set nothing is handed the same bytes again,
for as long as it keeps the lock and sets nothing; they are the committed ones throughout, so also
right before its commit, and its commit counts this read among its deeds. So all that the committed
transactions have done can be done again, one transaction after the other in the order of their
commits: from what the store had at first, each read under a lock that was kept finds what it found,
and at the end the pages have their committed bytes. -/
theorem locked_reads_serial {p : Pool} {capacity : Nat} {catalog : Catalog} {journal : Journal}
    (hs : catalog.Sound) (hp : Pool.make capacity catalog journal = .ok p)
    (hw : Tallies note Orderly (ofPool p) .empty w h) :
    (∀ i t q page, w.Fetches i t q page → w.ledger.pending t q = none →
      ∀ w' h', Tallies note (Keeps t q) (w.perform (.turn i)) (w.note h (.turn i)) w' h' →
        w'.ledger.committed q = page.data ∧
        (∀ j again, w'.Fetches j t q again → w'.ledger.pending t q = none →
          again.data = page.data) ∧
        ((w'.pool.logCommit t).1 = .ok () →
          ∃ ds, (w'.note h' (.complete t true)).committed = h'.committed ++ [(t, ds)] ∧
            .read q page.data ∈ ds)) ∧
    Deed.redoAll (Ledger.ofCatalog catalog).committed (h.committed.flatMap Prod.snd) =
      some w.ledger.committed := by
  have hcatalog : p.catalog = catalog := by
    obtain ⟨-, rfl⟩ := Pool.make_eq_ok hp
    rfl
  obtain ⟨hconsistent, hn⟩ := hw.noted (consistent_ofPool hs hp) (noted_ofPool p)
  rw [hcatalog] at hn
  refine ⟨?_, hn.committed⟩
  intro i t q page hf hclean w' h' hrun
  obtain ⟨hpage, hdeed, hheld⟩ := hconsistent.fetches hf
  have hread : .read q page.data ∈ (w.note h (.turn i)).unfinished t :=
    List.mem_filter.2 ⟨List.mem_append_right _ hdeed, hheld⟩
  obtain ⟨hconsistent', -, hsame, hretained⟩ :=
    hrun.remembers (hconsistent.turn i) hheld hread rfl
  -- the turn of a fetch commits nothing either
  obtain ⟨u, hadvances⟩ := advances_turn hconsistent i
  have hdata : page.data = w.ledger.committed q := by
    rw [hpage]
    exact Ledger.view_eq_of_not_pending hclean
  have hcommitted : w'.ledger.committed q = page.data := by
    rw [hsame, hdata]
    exact congrFun hadvances.committed_eq q
  refine ⟨hcommitted, fun j again hagain hclean' => ?_, fun hlog => ⟨h'.unfinished t, ?_, hretained⟩⟩
  · rw [← hcommitted, (hconsistent'.fetches hagain).1]
    exact Ledger.view_eq_of_not_pending hclean'
  · simp only [note, History.retain, done, hlog]

def readFirst : List Action := [.begin, .call 0 (.fetch ⟨1⟩ ⟨⟨1⟩, 0⟩ .readOnly)]

/-- The first transaction is about to read the page. -/
def beforeRead : World := (ofPool onePage).performAll readFirst

def doneBeforeRead : History := Tallies.noteAll note (ofPool onePage) .empty readFirst

/-- Another transaction waits to insert into the page, and the first one reads it again. -/
def readAgain : List Action :=
  [.call 1 (.insert ⟨2⟩ ⟨1⟩ [7]), .turn 0, .flushAll, .call 2 (.fetch ⟨1⟩ ⟨⟨1⟩, 0⟩ .readOnly)]

theorem reads_same_again :
    ∃ h w' h', Tallies note Orderly (ofPool onePage) .empty beforeRead h ∧
      w' = (beforeRead.perform (.turn 0)).performAll readAgain ∧
      Tallies note (Keeps ⟨1⟩ ⟨⟨1⟩, 0⟩) (beforeRead.perform (.turn 0)) (beforeRead.note h (.turn 0))
        w' h' ∧
      w'.Fetches 1 ⟨1⟩ ⟨⟨1⟩, 0⟩ (.ofStored ⟨⟨1⟩, 0⟩ [0, 0]) ∧
      w'.ledger.committed ⟨⟨1⟩, 0⟩ = [0, 0] ∧
      ∃ ds, (w'.note h' (.complete ⟨1⟩ true)).committed = [(⟨1⟩, ds)] ∧
        .read ⟨⟨1⟩, 0⟩ [0, 0] ∈ ds := by
  have hbefore : Tallies note Orderly (ofPool onePage) .empty beforeRead doneBeforeRead :=
    Tallies.refl.performAll (by decide)
  have hfetches : beforeRead.Fetches 0 ⟨1⟩ ⟨⟨1⟩, 0⟩ (.ofStored ⟨⟨1⟩, 0⟩ [0, 0]) :=
    ⟨_, _, rfl, rfl, rfl, rfl, rfl⟩
  have hkeeps : Follows (Keeps ⟨1⟩ ⟨⟨1⟩, 0⟩) (beforeRead.perform (.turn 0)) readAgain := by
    decide +kernel
  have hbetween : Tallies note _ _ (beforeRead.note doneBeforeRead (.turn 0)) _ _ :=
    Tallies.refl.performAll hkeeps
  obtain ⟨hcommitted, -, hcommits⟩ := (locked_reads_serial Catalog.sound_oneSlot make_onePage
    hbefore).1 0 _ _ _ hfetches rfl _ _ hbetween
  obtain ⟨ds, hds, hread⟩ := hcommits (by decide)
  exact ⟨_, _, _, hbefore, rfl, hbetween, ⟨_, _, rfl, rfl, rfl, rfl, rfl⟩, hcommitted, ds, hds,
    hread⟩

end World

end PagePool
