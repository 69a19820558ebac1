import Mathlib.Data.List.Basic
import PagePool.Proofs.Pool.Completion
import PagePool.Proofs.Pool.Flush
import PagePool.Proofs.Pool.Turns
import PagePool.Proofs.Store.Opening

namespace PagePool

/-- A call that a transaction makes on heap tables and that may have to wait. Edits of single bytes are
not among them: they are calls of tables of another kind, whose changes need not leave a page of
tuples behind, and of what they do only the lemmas about pools and single calls speak. -/
inductive Command where
  | fetch (t : TransactionId) (page : PageId) (access : Access)
  | insert (t : TransactionId) (table : TableId) (tuple : Bytes)
  | delete (t : TransactionId) (record? : Option RecordId)
  | scan (t : TransactionId) (table : TableId)
  deriving DecidableEq, Repr

namespace Command

def tid : Command → TransactionId
  | fetch t _ _ => t
  | insert t _ _ => t
  | delete t _ => t
  | scan t _ => t

def start (p : Pool) : Command → Progress × Pool
  | fetch t page access => p.startFetch t page access
  | insert t table tuple => p.startInsert t table tuple true
  | delete t record? => p.startDelete t record?
  | scan t table => p.startScan t table

/-- The pages that a scan is to go through. -/
def scans (c : Catalog) : Command → Option (List PageId)
  | scan _ table => (c.tables.get? table).map HeapTable.pageIds
  | _ => none

end Command

/-! In a world, what a call does from one lock request to the next is one step, and so is a completion.
Callers that run at the same time may get in between at more places: when a lock has been granted and
its page is not yet looked up; when a call has given back a full page and does not yet know whether the
table has another one or has to grow; when it has been handed a page and has not yet installed its
changed copy; and when a completion has settled its pages and has not yet logged an abort or given back
its locks. That nobody does so is an assumption of what is said about runs of worlds. `Pool.Installable`
says what may happen before an install: whatever the others do there, the page stays locked for it.
After a full page has been given back, the table may grow by a page of others.

The devices refuse the same pages, records and forces throughout one step. A flush of several pages is
no more than flushes of single pages in a row (`exists_flushes`), and a force that fails from some page
on is told to fail between two of these. -/

/-- A pool in use by any number of callers, with the calls that wait, what the pages hold by the
ledger, and the pages that each transaction's latest scan set out to read. -/
structure World where
  session : Session Pool Call
  ledger : Ledger
  scanned : TransactionId → List PageId

/-- One step of one caller, or of the devices, which from then on refuse other pages and records. A
call starts in one step and makes each of its lock requests in a turn of its own, by its position
among the waiting calls. -/
inductive Action where
  | begin
  | call (step : Nat) (c : Command)
  | turn (i : Nat)
  | complete (t : TransactionId) (commit : Bool)
  | flush (page : PageId)
  | flushAll
  | flushOf (t : TransactionId)
  | discard (page : PageId)
  | releaseLock (t : TransactionId) (page : PageId)
  | failStore (table : TableId) (faults : DeviceFaults)
  | failLog (refuses : LogRecord → Bool) (forceFails : Bool)

namespace World

def pool (w : World) : Pool := w.session.state

def withPool (w : World) (p : Pool) : World := { w with session := { w.session with state := p } }

/-- A world of one pool that nobody has used. -/
def ofPool (p : Pool) : World := ⟨⟨p, []⟩, .ofCatalog p.catalog, fun _ => []⟩

/-- Whether none of the waiting calls is the transaction's. -/
def Idle (w : World) (t : TransactionId) : Prop :=
  ∀ p ∈ w.session.pending, p.call.request.tid ≠ t

/-- The pages of each transaction's latest scan, once a call has been made. -/
def scannedAfter (w : World) (c : Command) (t : TransactionId) : List PageId :=
  match c.scans w.pool.catalog with
  | some pages => if t = c.tid then pages else w.scanned t
  | none => w.scanned t

/-- A call ends as it starts, or joins the waiting ones. -/
def issue (w : World) (step : Nat) (c : Command) : Option (Except Error Answer) × World :=
  match c.start w.pool with
  | (.ended result, p) => (some result, { w.withPool p with scanned := w.scannedAfter c })
  | (.needs call, p) =>
    (none,
      { w with
        session := ⟨p, w.session.pending ++ [⟨step, call⟩]⟩
        scanned := w.scannedAfter c })

/-- A waiting call makes one lock request. The ledger takes note when it ends. -/
def turn (w : World) (i : Nat) : Option (Nat × Except Error Answer) × World :=
  match w.session.pending[i]?, w.session.resume (Pool.runCall 1) i with
  | some p, (some (step, result), session) =>
    (some (step, result),
      { w with session, ledger := w.ledger.record w.pool.catalog.layout? p.call result })
  | _, (_, session) => (none, { w with session })

def perform (w : World) : Action → World
  | .begin => w.withPool w.pool.begin.2
  | .call step c => (w.issue step c).2
  | .turn i => (w.turn i).2
  | .complete t commit =>
    { w.withPool (w.pool.complete t commit).2 with ledger := w.pool.completed w.ledger t commit }
  | .flush page => w.withPool (w.pool.flush page).2
  | .flushAll => w.withPool w.pool.flushAll.2
  | .flushOf t => w.withPool (w.pool.flushOf t).2
  | .discard page => w.withPool (w.pool.discard page)
  | .releaseLock t page => w.withPool (w.pool.releaseLock t page)
  | .failStore table faults =>
    match w.pool.catalog.setFaults table faults with
    | .error _ => w
    | .ok catalog => w.withPool { w.pool with catalog }
  | .failLog refuses forceFails =>
    w.withPool { w.pool with journal := { w.pool.journal with refuses, forceFails } }

/-- What callers keep to: a transaction makes one call at a time, and nobody drops cached pages or
gives up single locks. -/
def Orderly (w : World) : Action → Prop
  | .call _ c => w.Idle c.tid
  | .complete t _ => w.Idle t
  | .discard _ => False
  | .releaseLock _ _ => False
  | _ => True

/-- The worlds that steps lead to, in any order that keeps to a rule. -/
inductive Reaches (rule : World → Action → Prop) (start : World) : World → Prop where
  | refl : Reaches rule start start
  | step {w a} : Reaches rule start w → rule w a → Reaches rule start (w.perform a)

/-- The worlds that steps lead to, with an account that is kept of the steps. -/
inductive Tallies {α : Type} (note : World → α → Action → α) (rule : World → Action → Prop)
    (start : World) (begun : α) : World → α → Prop where
  | refl : Tallies note rule start begun start begun
  | step {w k a} : Tallies note rule start begun w k → rule w a →
      Tallies note rule start begun (w.perform a) (note w k a)

def performAll (w : World) (as : List Action) : World := as.foldl perform w

/-- Steps in a row that keep to a rule. -/
def Follows (rule : World → Action → Prop) : World → List Action → Prop
  | _, [] => True
  | w, a :: as => rule w a ∧ Follows rule (w.perform a) as

instance (w : World) (t : TransactionId) : Decidable (w.Idle t) :=
  inferInstanceAs (Decidable (∀ p ∈ w.session.pending, p.call.request.tid ≠ t))

instance (w : World) : (a : Action) → Decidable (w.Orderly a)
  | .call _ c => inferInstanceAs (Decidable (w.Idle c.tid))
  | .complete t _ => inferInstanceAs (Decidable (w.Idle t))
  | .discard _ => isFalse id
  | .releaseLock _ _ => isFalse id
  | .begin => isTrue trivial
  | .turn _ => isTrue trivial
  | .flush _ => isTrue trivial
  | .flushAll => isTrue trivial
  | .flushOf _ => isTrue trivial
  | .failStore _ _ => isTrue trivial
  | .failLog _ _ => isTrue trivial

instance decidableFollows {rule : World → Action → Prop} [∀ w a, Decidable (rule w a)] :
    (w : World) → (as : List Action) → Decidable (Follows rule w as)
  | _, [] => isTrue trivial
  | w, a :: as =>
    have : Decidable (Follows rule (w.perform a) as) := decidableFollows (w.perform a) as
    inferInstanceAs (Decidable (_ ∧ _))

/-- What holds throughout: the pool agrees with the ledger, no two waiting calls are of one
transaction, and each call can rely on what it has seen. -/
structure Consistent (w : World) : Prop where
  agrees : w.pool.Agrees w.ledger
  one_call : (w.session.pending.map fun p => p.call.request.tid).Nodup
  waits : ∀ p ∈ w.session.pending,
    Pool.Waits w.pool w.ledger (w.scanned p.call.request.tid) p.call

end World

namespace Pool

variable {p p' : Pool} {l l' : Ledger} {pages : List PageId} {c : Call}

/-- A waiting call relies on nothing that the steps of other transactions change. -/
theorem Waits.of_frame (hc : Waits p l pages c) (hlayout : p'.catalog.layout? = p.catalog.layout?)
    (hholds : ∀ q, p'.locks.holds c.request.tid q = p.locks.holds c.request.tid q)
    (hview : ∀ q, p.locks.holds c.request.tid q = true →
      l'.view c.request.tid q = l.view c.request.tid q)
    (hpending : ∀ q, l.pending c.request.tid q = none → l'.pending c.request.tid q = none) :
    Waits p' l' pages c := by
  obtain ⟨r, task⟩ := c
  cases task with
  | insert tuple heldBefore install =>
    obtain ⟨hmode, hinstall, hfresh⟩ := hc
    exact ⟨hmode, hinstall, fun hheld => hpending _ (hfresh hheld)⟩
  | scan rest found =>
    obtain ⟨seen, hpages, hseen, hfound⟩ := hc
    refine ⟨seen, hpages, fun q hq => (hholds q).trans (hseen q hq), ?_⟩
    rw [hfound, hlayout]
    apply List.flatMap_congr
    intro q hq
    exact (Ledger.tuplesIn_congr (hview q (hseen q hq))).symm
  | _ => exact hc

theorem Advances.waits {t : TransactionId} (h : Advances t p l p' l') (hc : Waits p l pages c)
    (hne : c.request.tid ≠ t) : Waits p' l' pages c := by
  refine hc.of_frame h.layout_eq (fun _ => h.holds_eq hne) (fun _ _ => h.view_eq hne) ?_
  intro q hq
  rw [h.pending_eq hne, hq]

/-- How a call may end as it starts: in an error, or as a scan of no pages. -/
def StartEnds (l : Ledger) (pages : List PageId) (result : Except Error Answer) (l' : Ledger) :
    Prop :=
  l' = l ∧ ((∃ e, result = .error e) ∨ pages = [] ∧ result = .ok (.tuples []))

theorem goes_start (h : p.Agrees l) (c : Command)
    (hpages : ∀ qs, c.scans p.catalog = some qs → pages = qs) :
    Goes c.tid p l pages (StartEnds l pages) (fun _ => True) (c.start p) := by
  have hfail (e : Error) : StartEnds l pages (.error e) l := ⟨rfl, .inl ⟨e, rfl⟩⟩
  cases c with
  | fetch t page access => exact .needs rfl trivial trivial (.refl h)
  | insert t table tuple =>
    simp only [Command.start, startInsert]
    cases ht : p.catalog.table table with
    | error e => exact .ended (hfail e) (.refl h)
    | ok heap =>
      simp only
      split
      · exact goes_seekRoom h hfail (fun _ => trivial) t table 0
      · exact .ended (hfail _) (.refl h)
  | delete t record? =>
    simp only [Command.start, startDelete]
    cases record? with
    | none => exact .ended (hfail _) (.refl h)
    | some record =>
      simp only [startDeleteFrom]
      cases ht : p.catalog.table record.page.table with
      | error e => exact .ended (hfail e) (.refl h)
      | ok heap =>
        simp only
        split
        · exact .needs rfl trivial ⟨rfl, rfl⟩ (.refl h)
        · exact .ended (hfail _) (.refl h)
  | scan t table =>
    simp only [Command.start, startScan]
    cases ht : p.catalog.table table with
    | error e => exact .ended (hfail e) (.refl h)
    | ok heap =>
      have hscans : pages = [] ++ heap.pageIds := by
        apply hpages
        rw [Command.scans, Catalog.table_eq_ok.1 ht]
        rfl
      refine goes_scanNext h hscans nofun rfl ?_ fun _ _ => trivial
      intro hnil
      exact ⟨rfl, .inr ⟨hscans.trans hnil, rfl⟩⟩

end Pool

namespace World

variable {w : World} {i : Nat} {call : Pending Call} {p' : Pool} {l' : Ledger}

theorem Reaches.performAll {rule : World → Action → Prop} {start : World} {as : List Action}
    (hr : Reaches rule start w) (h : Follows rule w as) : Reaches rule start (w.performAll as) := by
  induction as generalizing w with
  | nil => exact hr
  | cons a as ih => exact ih (hr.step h.1) h.2

namespace Tallies

variable {α : Type} {note : World → α → Action → α} {rule : World → Action → Prop} {start : World}
  {begun k : α}

theorem reaches (h : Tallies note rule start begun w k) : Reaches rule start w := by
  induction h with
  | refl => exact .refl
  | step _ ha ih => exact ih.step ha

/-- The account after steps in a row. -/
def noteAll (note : World → α → Action → α) (w : World) (k : α) : List Action → α
  | [] => k
  | a :: as => noteAll note (w.perform a) (note w k a) as

theorem performAll {as : List Action} (h : Tallies note rule start begun w k)
    (has : Follows rule w as) :
    Tallies note rule start begun (w.performAll as) (noteAll note w k as) := by
  induction as generalizing w k with
  | nil => exact h
  | cons a as ih => exact ih (h.step has.1) has.2

end Tallies

/-- Only turns and completions are noted in the ledger. -/
theorem ledger_perform (w : World) (a : Action) :
    (w.perform a).ledger =
      match a with
      | .turn i => (w.turn i).2.ledger
      | .complete t commit => w.pool.completed w.ledger t commit
      | _ => w.ledger := by
  cases a with
  | call step c =>
    simp only [perform, issue]
    split <;> rfl
  | failStore table faults =>
    simp only [perform]
    split <;> rfl
  | _ => rfl

theorem turn_of_absent (hi : w.session.pending[i]? = none) : w.turn i = (none, w) := by
  simp only [turn, Session.resume, hi]

theorem turn_of_blocked {c : Call} (hi : w.session.pending[i]? = some call)
    (hrun : w.pool.runCall 1 call.call = (.blocked c, p')) :
    w.turn i = (none,
      { w with session := ⟨p', w.session.pending.set i { call with call := c }⟩ }) := by
  have hpass : Pool.runCall 1 w.session.state call.call = (.blocked c, p') := hrun
  simp only [turn, Session.resume, hi, hpass]

theorem turn_of_ended {result : Except Error Answer} (hi : w.session.pending[i]? = some call)
    (hrun : w.pool.runCall 1 call.call = (.ended result, p')) :
    w.turn i = (some (call.step, result),
      { w with
        session := ⟨p', w.session.pending.eraseIdx i⟩
        ledger := w.ledger.record w.pool.catalog.layout? call.call result }) := by
  have hpass : Pool.runCall 1 w.session.state call.call = (.ended result, p') := hrun
  simp only [turn, Session.resume, hi, hpass]

theorem pool_turn (hi : w.session.pending[i]? = some call) :
    (w.turn i).2.pool = (w.pool.runCall 1 call.call).2 := by
  rcases hrun : w.pool.runCall 1 call.call with ⟨pass, p'⟩
  cases pass with
  | blocked c =>
    rw [turn_of_blocked hi hrun]
    rfl
  | ended result =>
    rw [turn_of_ended hi hrun]
    rfl

theorem runCall_of_turn {step : Nat} {result : Except Error Answer}
    (hi : w.session.pending[i]? = some call) (hturn : (w.turn i).1 = some (step, result)) :
    w.pool.runCall 1 call.call = (.ended result, (w.turn i).2.pool) ∧
      (w.turn i).2.ledger = w.ledger.record w.pool.catalog.layout? call.call result := by
  rcases hrun : w.pool.runCall 1 call.call with ⟨pass, p'⟩
  cases pass with
  | blocked c =>
    rw [turn_of_blocked hi hrun] at hturn
    contradiction
  | ended found =>
    rw [turn_of_ended hi hrun] at hturn ⊢
    obtain rfl := (Prod.mk.inj (Option.some.inj hturn)).2
    exact ⟨rfl, rfl⟩

theorem pool_issue (w : World) (step : Nat) (c : Command) :
    (w.issue step c).2.pool = (c.start w.pool).2 := by
  unfold issue
  rcases c.start w.pool with ⟨progress, p'⟩
  cases progress <;> rfl

/-- A turn of a waiting call: it waits on, or it ends. -/
theorem turn_cases (h : w.Consistent) (hi : w.session.pending[i]? = some call) :
    (∃ c' p', w.turn i = (none,
        { w with session := ⟨p', w.session.pending.set i { call with call := c' }⟩ }) ∧
      c'.request.tid = call.call.request.tid ∧
      (c' = call.call ∨ Pool.GoesOn call.call.task c'.task) ∧
      Pool.Waits p' w.ledger (w.scanned call.call.request.tid) c' ∧
      Pool.Advances call.call.request.tid w.pool w.ledger p' w.ledger) ∨
    ∃ result p', w.turn i = (some (call.step, result),
        { w with
          session := ⟨p', w.session.pending.eraseIdx i⟩
          ledger := w.ledger.record w.pool.catalog.layout? call.call result }) ∧
      Pool.Answers w.pool w.ledger (w.scanned call.call.request.tid) call.call result ∧
      Pool.Advances call.call.request.tid w.pool w.ledger p'
        (w.ledger.record w.pool.catalog.layout? call.call result) := by
  have hwaits := h.waits call (List.mem_of_getElem? hi)
  rcases Pool.turn_cases h.agrees hwaits with
    ⟨c', p', hturn, ht, hn, hw, ha⟩ | ⟨result, p', hturn, hr, ha⟩
  · exact .inl ⟨c', p', turn_of_blocked hi hturn, ht, hn, hw, ha⟩
  · exact .inr ⟨result, p', turn_of_ended hi hturn, hr, ha⟩

theorem advances_turn (h : w.Consistent) (i : Nat) :
    ∃ t, Pool.Advances t w.pool w.ledger (w.turn i).2.pool (w.turn i).2.ledger := by
  cases hi : w.session.pending[i]? with
  | none =>
    rw [turn_of_absent hi]
    exact ⟨⟨0⟩, .refl h.agrees⟩
  | some call =>
    rcases turn_cases h hi with ⟨c', p', hturn, -, -, -, ha⟩ | ⟨result, p', hturn, -, ha⟩
    · rw [hturn]
      exact ⟨_, ha⟩
    · rw [hturn]
      exact ⟨_, ha⟩

/-! A turn changes one place in the list of waiting calls, or takes it out. -/

variable {calls : List (Pending Call)} {c : Call} {P : Call → Prop}

theorem tids_set (hi : calls[i]? = some call) (ht : c.request.tid = call.call.request.tid) :
    (calls.set i { call with call := c }).map (fun p => p.call.request.tid) =
      calls.map fun p => p.call.request.tid := by
  apply List.ext_getElem?
  intro j
  rw [List.getElem?_map, List.getElem?_map, List.getElem?_set]
  split
  · rename_i hij
    subst hij
    rw [if_pos (List.getElem?_eq_some_iff.1 hi).1, hi]
    exact congrArg some ht
  · rfl

/-- Two places in the list are never of one transaction. -/
theorem tid_ne (hnodup : (calls.map fun p => p.call.request.tid).Nodup) {j : Nat}
    {other : Pending Call} (hi : calls[i]? = some call) (hj : calls[j]? = some other)
    (hne : j ≠ i) : other.call.request.tid ≠ call.call.request.tid := by
  intro htid
  have hlt : j < (calls.map fun p => p.call.request.tid).length := by
    rw [List.length_map]
    exact (List.getElem?_eq_some_iff.1 hj).1
  refine hne ((List.getElem?_inj hlt hnodup).1 ?_)
  rw [List.getElem?_map, List.getElem?_map, hi, hj]
  exact congrArg some htid

theorem forall_mem_set (hnodup : (calls.map fun p => p.call.request.tid).Nodup)
    (hi : calls[i]? = some call) (hself : P c)
    (hothers : ∀ other ∈ calls, other.call.request.tid ≠ call.call.request.tid → P other.call) :
    ∀ other ∈ calls.set i { call with call := c }, P other.call := by
  intro other hother
  obtain ⟨j, hj⟩ := List.getElem?_of_mem hother
  rw [List.getElem?_set] at hj
  split at hj
  · split at hj
    · rw [← Option.some.inj hj]
      exact hself
    · contradiction
  · rename_i hij
    exact hothers other (List.mem_of_getElem? hj) (tid_ne hnodup hi hj (Ne.symm hij))

theorem forall_mem_eraseIdx (hnodup : (calls.map fun p => p.call.request.tid).Nodup)
    (hi : calls[i]? = some call)
    (hothers : ∀ other ∈ calls, other.call.request.tid ≠ call.call.request.tid → P other.call) :
    ∀ other ∈ calls.eraseIdx i, P other.call := by
  intro other hother
  obtain ⟨j, hij, hj⟩ := List.mem_eraseIdx_iff_getElem?.1 hother
  exact hothers other (List.mem_of_getElem? hj) (tid_ne hnodup hi hj hij)

theorem nodup_append (hnodup : (calls.map fun p => p.call.request.tid).Nodup) {step : Nat}
    (hidle : ∀ other ∈ calls, other.call.request.tid ≠ c.request.tid) :
    ((calls ++ [(⟨step, c⟩ : Pending Call)]).map fun p => p.call.request.tid).Nodup := by
  rw [List.map_append, List.nodup_append]
  refine ⟨hnodup, List.pairwise_singleton _ _, ?_⟩
  rintro t ht u hu rfl
  obtain ⟨other, hother, rfl⟩ := List.mem_map.1 ht
  exact hidle other hother (List.mem_singleton.1 hu)

theorem Consistent.turn (h : w.Consistent) (i : Nat) : (w.turn i).2.Consistent := by
  cases hi : w.session.pending[i]? with
  | none => rwa [turn_of_absent hi]
  | some call =>
    rcases turn_cases h hi with ⟨c', p', hturn, ht, -, hw, ha⟩ | ⟨result, p', hturn, -, ha⟩
    · -- the call stays at its place, for this lock or its next one
      rw [hturn]
      refine ⟨ha.agrees, ?_, ?_⟩
      · simp only [tids_set hi ht]
        exact h.one_call
      · refine forall_mem_set (P := fun c => Pool.Waits p' w.ledger (w.scanned c.request.tid) c)
          h.one_call hi (ht ▸ hw) ?_
        exact fun other hother hne => ha.waits (h.waits other hother) hne
    · -- the call has ended and leaves the list
      rw [hturn]
      refine ⟨ha.agrees, ?_, ?_⟩
      · exact h.one_call.sublist ((List.eraseIdx_sublist _ _).map _)
      · refine forall_mem_eraseIdx (P := fun c => Pool.Waits p' _ (w.scanned c.request.tid) c)
          h.one_call hi ?_
        exact fun other hother hne => ha.waits (h.waits other hother) hne

theorem scannedAfter_of_scans {c : Command} {qs : List PageId}
    (h : c.scans w.pool.catalog = some qs) : w.scannedAfter c c.tid = qs := by
  simp only [scannedAfter, h, if_true]

theorem scannedAfter_of_ne {c : Command} {t : TransactionId} (h : t ≠ c.tid) :
    w.scannedAfter c t = w.scanned t := by
  unfold scannedAfter
  split
  · exact if_neg h
  · rfl

theorem advances_issue (h : w.Consistent) (step : Nat) (c : Command) :
    Pool.Advances c.tid w.pool w.ledger (w.issue step c).2.pool w.ledger := by
  have hgoes := Pool.goes_start h.agrees c fun _ => scannedAfter_of_scans (w := w)
  unfold World.issue
  rcases hstart : c.start w.pool with ⟨progress, p'⟩
  rw [hstart] at hgoes
  cases hgoes with
  | ended hends ha =>
    obtain ⟨rfl, -⟩ := hends
    exact ha
  | needs _ _ _ ha => exact ha

/-- What succeeds as it starts has had nothing to read. -/
theorem Consistent.answers_at_once (h : w.Consistent) {step : Nat} {c : Command}
    {answer : Answer} (hi : (w.issue step c).1 = some (.ok answer)) :
    answer = .tuples ((w.scannedAfter c c.tid).flatMap
      (w.ledger.tuplesIn w.pool.catalog.layout? c.tid)) := by
  have hgoes := Pool.goes_start h.agrees c fun _ => scannedAfter_of_scans (w := w)
  unfold World.issue at hi
  rcases hstart : c.start w.pool with ⟨progress, p'⟩
  rw [hstart] at hgoes hi
  cases hgoes with
  | @ended result _ _ hends _ =>
    have hresult : result = .ok answer := Option.some.inj hi
    obtain ⟨-, ⟨e, he⟩ | ⟨hnone, hempty⟩⟩ := hends
    · rw [hresult] at he
      contradiction
    · rw [hnone]
      exact Except.ok.inj (hresult.symm.trans hempty)
  | needs _ _ _ _ => contradiction

theorem Consistent.issue (h : w.Consistent) {c : Command} (hidle : w.Idle c.tid) (step : Nat) :
    (w.issue step c).2.Consistent := by
  have hgoes := Pool.goes_start h.agrees c fun _ => scannedAfter_of_scans (w := w)
  unfold World.issue
  rcases hstart : c.start w.pool with ⟨progress, p'⟩
  rw [hstart] at hgoes
  have hothers {l' : Ledger} (ha : Pool.Advances c.tid w.pool w.ledger p' l') :
      ∀ other ∈ w.session.pending,
        Pool.Waits p' l' (w.scannedAfter c other.call.request.tid) other.call := by
    intro other hother
    have hne := hidle other hother
    rw [scannedAfter_of_ne hne]
    exact ha.waits (h.waits other hother) hne
  cases hgoes with
  | ended hends ha =>
    obtain ⟨rfl, -⟩ := hends
    exact ⟨ha.agrees, h.one_call, hothers ha⟩
  | @needs call _ ht _ hw ha =>
    refine ⟨ha.agrees, ?_, ?_⟩
    · exact nodup_append h.one_call fun other hother => by
        rw [ht]
        exact hidle other hother
    · intro other hother
      rcases List.mem_append.1 hother with hother | hother
      · exact hothers ha other hother
      · obtain rfl := List.mem_singleton.1 hother
        simp only [ht]
        exact hw

theorem layout?_of_tables {c c' : Catalog} (h : c'.tables = c.tables) :
    c'.layout? = c.layout? := by
  funext i
  rw [Catalog.layout?, h]
  rfl

/-- The pool may change under waiting calls that it keeps their locks and tables for. -/
theorem Consistent.withPool (h : w.Consistent) {p' : Pool} (ha : p'.Agrees w.ledger)
    (hlayout : p'.catalog.layout? = w.pool.catalog.layout?) (hlocks : p'.locks = w.pool.locks) :
    (w.withPool p').Consistent := by
  refine ⟨ha, h.one_call, ?_⟩
  intro call hcall
  refine (h.waits call hcall).of_frame hlayout ?_ (fun _ _ => rfl) (fun _ => id)
  intro q
  exact congrArg (fun k : LockTable => k.holds call.call.request.tid q) hlocks

theorem Consistent.complete (h : w.Consistent) {t : TransactionId} (hidle : w.Idle t)
    (commit : Bool) : (w.perform (.complete t commit)).Consistent := by
  have hcompletes := Pool.completes w.pool t commit
  refine ⟨h.agrees.complete t commit, h.one_call, ?_⟩
  intro call hcall
  have hne := hidle call hcall
  refine (h.waits call hcall).of_frame (layout?_of_tables hcompletes.tables_eq)
    (fun _ => hcompletes.holds_eq hne) (fun q => Pool.view_completed h.agrees commit hne) ?_
  intro q hq
  exact (Pool.pending_completed commit hne).trans hq

theorem Consistent.failStore (h : w.Consistent) (table : TableId) (faults : DeviceFaults) :
    (w.perform (.failStore table faults)).Consistent := by
  simp only [perform]
  cases hf : w.pool.catalog.setFaults table faults with
  | error e => exact h
  | ok catalog =>
    have hlayout : catalog.layout? = w.pool.catalog.layout? :=
      funext (Catalog.layout?_setFaults hf)
    refine h.withPool ?_ hlayout rfl
    refine h.agrees.withCatalog (Catalog.sound_setFaults h.agrees.catalog hf) ?_ ?_
    · obtain ⟨heap, -, rfl⟩ := Catalog.setFaults_eq_ok hf
      rfl
    · exact fun q => .inl (Catalog.stored?_setFaults hf q)

/-- Every orderly step keeps the world consistent. -/
theorem Consistent.perform (h : w.Consistent) {a : Action} (ha : w.Orderly a) :
    (w.perform a).Consistent := by
  have hflush {p' : Pool} (hp : p'.Agrees w.ledger ∧ Pool.Flushes w.pool p') :
      (w.withPool p').Consistent :=
    h.withPool hp.1 (layout?_of_tables hp.2.tables_eq) hp.2.locks_eq
  cases a with
  | begin =>
    refine h.withPool (h.agrees.congr rfl rfl rfl rfl rfl ?_) rfl rfl
    exact fun t ht => OrdSet.mem_insert.2 (.inr ht)
  | call step c => exact h.issue ha step
  | turn i => exact h.turn i
  | complete t commit => exact h.complete ha commit
  | flush page => exact hflush (h.agrees.flush page)
  | flushAll => exact hflush (h.agrees.flushEach _)
  | flushOf t => exact hflush (h.agrees.flushEach _)
  | discard page => exact ha.elim
  | releaseLock t page => exact ha.elim
  | failStore table faults => exact h.failStore table faults
  | failLog refuses forceFails => exact h.withPool (h.agrees.withJournal _) rfl rfl

/-- No orderly step changes how a table is laid out. -/
theorem layout?_perform (h : w.Consistent) {a : Action} (ha : w.Orderly a) :
    (w.perform a).pool.catalog.layout? = w.pool.catalog.layout? := by
  cases a with
  | begin => rfl
  | call step c => exact (advances_issue h step c).layout_eq
  | turn i =>
    obtain ⟨t, hadvances⟩ := advances_turn h i
    exact hadvances.layout_eq
  | complete t commit => exact layout?_of_tables (Pool.completes w.pool t commit).tables_eq
  | flush page => exact layout?_of_tables (h.agrees.flush page).2.tables_eq
  | flushAll => exact layout?_of_tables (h.agrees.flushEach _).2.tables_eq
  | flushOf t => exact layout?_of_tables (h.agrees.flushEach _).2.tables_eq
  | discard page => exact ha.elim
  | releaseLock t page => exact ha.elim
  | failStore table faults =>
    simp only [perform]
    cases hf : w.pool.catalog.setFaults table faults with
    | error e => rfl
    | ok catalog => exact funext (Catalog.layout?_setFaults hf)
  | failLog refuses forceFails => rfl

theorem consistent_ofPool {p : Pool} {capacity : Nat} {catalog : Catalog} {journal : Journal}
    (hs : catalog.Sound) (hp : Pool.make capacity catalog journal = .ok p) :
    (ofPool p).Consistent := by
  have hagrees := Pool.agrees_make hs hp
  obtain ⟨-, rfl⟩ := Pool.make_eq_ok hp
  exact ⟨hagrees, List.nodup_nil, nofun⟩

theorem Reaches.consistent {rule : World → Action → Prop} {start : World}
    (hr : Reaches rule start w) (hrule : ∀ w a, rule w a → w.Orderly a)
    (hstart : start.Consistent) : w.Consistent := by
  induction hr with
  | refl => exact hstart
  | step _ ha ih => exact ih.perform (hrule _ _ ha)

/-- A pool of one page over one table of one page. -/
def onePage : Pool :=
  { capacity := 1, pages := .empty, recency := .empty, active := .empty, unsynced := .empty
    locks := .empty, catalog := .oneSlot, journal := .ofMedium (.memory .empty), stats := .zero
    nextTid := 1 }

theorem make_onePage : Pool.make 1 .oneSlot (.ofMedium (.memory .empty)) = .ok onePage := rfl

/-- A pool of two pages over one table without pages. -/
def noPages : Pool :=
  { capacity := 2, pages := .empty, recency := .empty, active := .empty, unsynced := .empty
    locks := .empty, catalog := .noPages, journal := .ofMedium (.memory .empty), stats := .zero
    nextTid := 1 }

theorem make_noPages : Pool.make 2 .noPages (.ofMedium (.memory .empty)) = .ok noPages := rfl

end World

end PagePool
