import PagePool.Proofs.Pool.Granted
import PagePool.Proofs.Pool.Locking
import PagePool.Proofs.Pool.Owners

namespace PagePool

/-- A lock in one mode does wherever a lock in the other one does. -/
def LockMode.Covers (mode needed : LockMode) : Prop := mode = .exclusive ∨ needed = .shared

namespace Held

/-- The transaction still holds what it held, in the same or a stronger mode. -/
def Retains (held held' : Held) (t : TransactionId) : Prop :=
  ∀ q mode, held t q = some mode → ∃ mode', held' t q = some mode' ∧ mode'.Covers mode

/-- The transaction has come to hold a page that it did not hold. -/
def Gains (held held' : Held) (t : TransactionId) (q : PageId) : Prop :=
  held t q = none ∧ held' t q ≠ none

variable {held held' held'' : Held} {r : LockRequest} {t : TransactionId} {q : PageId}

theorem grant_of_mode (hm : r.mode = .exclusive) (t : TransactionId) (q : PageId) :
    held.grant r t q = if t = r.tid ∧ q = r.page then some .exclusive else held t q := by
  unfold grant
  rw [hm]
  split
  · cases held t q with
    | none => rfl
    | some mode => cases mode <;> rfl
  · rfl

namespace Retains

theorem of_eq (h : held' t = held t) : held.Retains held' t := by
  intro q mode hq
  rw [h]
  refine ⟨mode, hq, ?_⟩
  cases mode
  · exact .inr rfl
  · exact .inl rfl

theorem trans (h : held.Retains held' t) (h' : held'.Retains held'' t) : held.Retains held'' t := by
  intro q mode hq
  obtain ⟨mode', hq', hcovers⟩ := h q mode hq
  obtain ⟨mode'', hq'', hcovers'⟩ := h' q mode' hq'
  refine ⟨mode'', hq'', ?_⟩
  rcases hcovers' with hstrong | hweak
  · exact .inl hstrong
  · refine .inr (hcovers.resolve_left fun hstrong => ?_)
    rw [hweak] at hstrong
    contradiction

theorem grant (hm : r.mode = .exclusive) : held.Retains (held.grant r) t := by
  intro q mode hq
  rw [grant_of_mode hm]
  split
  · exact ⟨.exclusive, rfl, .inl rfl⟩
  · exact of_eq rfl q mode hq

/-- An exclusive lock that is retained is exclusive. -/
theorem exclusive (h : held.Retains held' t) (hq : held t q = some .exclusive) :
    held' t q = some .exclusive := by
  obtain ⟨mode, hq', rfl | hshared⟩ := h q .exclusive hq
  · exact hq'
  · contradiction

end Retains

theorem Gains.of_grant (hm : r.mode = .exclusive) (h : held.Gains (held.grant r) t q) :
    q = r.page := by
  obtain ⟨hnone, hsome⟩ := h
  rw [grant_of_mode hm] at hsome
  split at hsome
  · rename_i heq
    exact heq.2
  · exact absurd hnone hsome

/-- What is gained in two steps is gained in the second one, if not in the first. -/
theorem Gains.resolve (h : held.Gains held'' t q) (hnot : ¬ held.Gains held' t q) :
    held'.Gains held'' t q := by
  refine ⟨?_, h.2⟩
  by_contra hsome
  exact hnot ⟨h.1, hsome⟩

end Held

theorem LockTable.holds_eq_of_modeOf {l k : LockTable} {t : TransactionId} (hl : l.Valid)
    (hk : k.Valid) (h : k.modeOf t = l.modeOf t) (q : PageId) : k.holds t q = l.holds t q := by
  rw [hk.shows.holds_eq, hl.shows.holds_eq, h]

/-- A lock that is given back at once leaves no trace if the page was not held before. -/
theorem LockTable.modeOf_giveBack {l k : LockTable} {r : LockRequest} (hl : l.Valid)
    (ha : l.acquire r = (.granted, k)) (hmode : r.mode = .exclusive)
    (hnot : l.holds r.tid r.page = false) : (k.release r.tid r.page).modeOf = l.modeOf := by
  have hk : k.Valid := by
    have hacquired := hl.acquire r
    rwa [ha] at hacquired
  have hnone : l.modeOf r.tid r.page = none := by
    rw [hl.shows.holds_eq] at hnot
    simpa using hnot
  rw [modeOf_release hk, modeOf_of_granted hl ha]
  funext u q
  unfold Held.release
  split
  · rename_i heq
    rw [heq.1, heq.2, hnone]
  · rename_i hne
    rw [Held.grant_of_mode hmode, if_neg hne]

namespace Pool

/-- A tuple has been written into the first free slot of the page. -/
def Fills (p p' : Pool) (q : PageId) (tuple : Bytes) : Prop :=
  ∃ layout d slot, p.catalog.layout? q.table = some layout ∧ p.newest? q = some d ∧
    layout.freeSlot d = some slot ∧ p'.newest? q = some (layout.write d slot tuple)

/-- A request has left no lock that was not there before: none has been moved, or one that was held
already has become exclusive. -/
def AddsNoLock (p : Pool) (r : LockRequest) (p' : Pool) : Prop :=
  p'.locks.modeOf = p.locks.modeOf ∨
    p.locks.holds r.tid r.page = true ∧ p'.locks.modeOf = Held.grant p.locks.modeOf r

/-- A turn of an insert: it goes on or ends without a new lock, it cannot load its page and ends with
the lock, or it fills the page and ends with the lock. -/
inductive Visits (p : Pool) (c : Call) (tuple : Bytes) :
    Pass Call (Except Error Answer) × Pool → Prop where
  | goesOn {c' p'} : p.AddsNoLock c.request p' → c'.request.tid = c.request.tid →
      (∃ held install, c'.task = .insert tuple held install) → p'.Knows c' →
      Visits p c tuple (.blocked c', p')
  | stops {e p'} : p.AddsNoLock c.request p' → Visits p c tuple (.ended (.error e), p')
  | fails {e p'} : p.FailsToLoad c e p' →
      p'.locks.modeOf = Held.grant p.locks.modeOf c.request →
      Visits p c tuple (.ended (.error e), p')
  | fills {p'} : p.Fills p' c.request.page tuple →
      p'.locks.modeOf = Held.grant p.locks.modeOf c.request →
      Visits p c tuple (.ended (.ok .done), p')

variable {p p' k : Pool} {c : Call} {t : TransactionId} {i : TableId} {n : UInt32} {tuple : Bytes}
  {held install : Bool}

theorem Knows.mode (hc : p.Knows c) (htask : c.task = .insert tuple held install) :
    c.request.mode = .exclusive := by
  rw [Knows, htask] at hc
  exact hc.1

theorem Knows.congr (hc : p.Knows c)
    (hholds : p'.locks.holds c.request.tid c.request.page =
      p.locks.holds c.request.tid c.request.page) : p'.Knows c := by
  obtain ⟨r, task⟩ := c
  cases task with
  | insert tuple held install =>
    obtain ⟨hmode, hinstall, hheld⟩ := hc
    exact ⟨hmode, hinstall, hheld.trans hholds.symm⟩
  | _ => exact hc

/-- A search asks for the next page exclusively, and knows whether it is held already. -/
theorem seekRoom_needs (h : p.seekRoom t i n tuple install = (.needs c, p')) :
    ∃ m, c = ⟨⟨t, ⟨i, m⟩, .exclusive⟩, .insert tuple (p.locks.holds t ⟨i, m⟩) install⟩ := by
  unfold seekRoom at h
  split at h
  · cases (Prod.mk.inj h).1
  · split at h
    · cases (Prod.mk.inj h).1
    · exact ⟨_, (Progress.needs.inj (Prod.mk.inj h).1).symm⟩

theorem visits (h : p.Backed) (hv : p.locks.Valid) (hc : p.Knows c)
    (htask : c.task = .insert tuple held install) : p.Visits c tuple (p.runCall 1 c) := by
  obtain ⟨r, task⟩ := c
  obtain rfl : task = .insert tuple held install := htask
  obtain ⟨hmode, rfl, hheld⟩ := hc
  have hmode : r.mode = .exclusive := hmode
  have hheld : held = p.locks.holds r.tid r.page := hheld
  have hrequests := requests (c := ⟨r, .insert tuple held true⟩) h rfl 0
  generalize p.runCall 1 ⟨r, .insert tuple held true⟩ = o at hrequests ⊢
  cases hrequests with
  | @waits locks ha =>
    have ha : p.locks.acquire r = (.waits, locks) := ha
    have hsame := LockTable.modeOf_of_refused (l := p.locks) (r := r) (by rw [ha]; nofun)
    have hvalid := hv.acquire r
    rw [ha] at hsame hvalid
    refine .goesOn (.inl hsame) rfl ⟨held, true, rfl⟩ ⟨hmode, rfl, hheld.trans ?_⟩
    exact (LockTable.holds_eq_of_modeOf hv hvalid (congrFun hsame r.tid) r.page).symm
  | @refused locks ha =>
    have ha : p.locks.acquire r = (.deadlock, locks) := ha
    have hsame := LockTable.modeOf_of_refused (l := p.locks) (r := r) (by rw [ha]; nofun)
    rw [ha] at hsame
    exact .stops (.inl hsame)
  | fails hfails =>
    refine .fails hfails ?_
    obtain ⟨locks, ha, hread⟩ := hfails
    rw [(read_frame hread).1]
    exact LockTable.modeOf_of_granted hv ha
  | @goesOn k heap page o hgranted ho =>
    have hlocks := LockTable.modeOf_of_granted hv hgranted.locks_eq
    cases hslot : heap.layout.freeSlot page.data with
    | some slot =>
      rw [hgranted.continueOn_insert hmode rfl hslot] at ho
      subst ho
      refine .fills ⟨heap.layout, page.data, slot, hgranted.layout_eq, hgranted.newest?_eq, hslot,
        ?_⟩ hlocks
      have hid : page.id = r.page := hgranted.id_eq
      simp only [newest?, addDirty, OrdMap.get?_insert, hid, if_true]
      rfl
    | none =>
      simp only [continueOn, HeapTable.place?, hslot, Option.map_none] at ho
      -- the lock of the full page is kept if it was held before, and else it goes back
      have hleft : p.AddsNoLock r (if held = true then k else k.releaseLock r.tid r.page) := by
        cases held with
        | true => exact .inr ⟨hheld.symm, hlocks⟩
        | false =>
          exact .inl (LockTable.modeOf_giveBack hv hgranted.locks_eq hmode hheld.symm)
      generalize (if held = true then k else k.releaseLock r.tid r.page) = k' at hleft ho
      obtain ⟨catalog, ⟨e, hs⟩ | ⟨c', hs, -⟩⟩ :=
        seekRoom_cases k' r.tid r.page.table (r.page.pageNo + 1) tuple true
      · rw [hs] at ho
        subst ho
        exact .stops hleft
      · obtain ⟨m, rfl⟩ := seekRoom_needs hs
        rw [hs] at ho
        subst ho
        exact .goesOn hleft rfl ⟨_, true, rfl⟩ ⟨rfl, rfl, rfl⟩

theorem AddsNoLock.retains {r : LockRequest} (h : p.AddsNoLock r p') (hmode : r.mode = .exclusive) :
    Held.Retains p.locks.modeOf p'.locks.modeOf t := by
  rcases h with hsame | ⟨-, hgranted⟩
  · exact .of_eq (congrFun hsame t)
  · rw [hgranted]
    exact .grant hmode

theorem AddsNoLock.not_gains {r : LockRequest} {q : PageId} (hv : p.locks.Valid)
    (h : p.AddsNoLock r p') (hmode : r.mode = .exclusive) :
    ¬ Held.Gains p.locks.modeOf p'.locks.modeOf r.tid q := by
  rintro ⟨hnone, hsome⟩
  rcases h with hsame | ⟨hheld, hgranted⟩
  · rw [hsame] at hsome
    exact hsome hnone
  · obtain rfl : q = r.page := by
      rw [hgranted] at hsome
      exact Held.Gains.of_grant hmode ⟨hnone, hsome⟩
    rw [hv.shows.holds_eq, hnone] at hheld
    contradiction

/-- Whatever a turn of an insert comes to, its transaction keeps what it held. -/
theorem Visits.retains {o : Pass Call (Except Error Answer) × Pool} (h : p.Visits c tuple o)
    (hmode : c.request.mode = .exclusive) :
    Held.Retains p.locks.modeOf o.2.locks.modeOf t := by
  cases h with
  | goesOn hadds _ _ _ => exact hadds.retains hmode
  | stops hadds => exact hadds.retains hmode
  | fails _ hlocks =>
    rw [hlocks]
    exact .grant hmode
  | fills _ hlocks =>
    rw [hlocks]
    exact .grant hmode

end Pool

namespace World

/-- Steps of single calls that leave a call of the transaction waiting. -/
def Awaits (t : TransactionId) (w : World) (a : Action) : Prop :=
  w.SingleCalls a ∧ ¬ (w.perform a).Idle t

instance (t : TransactionId) (w : World) (a : Action) : Decidable (Awaits t w a) :=
  inferInstanceAs (Decidable (_ ∧ ¬ _))

/-- An insert of the transaction is under way: of the pages that it held at the start it has given up
none, and beyond them it holds none. -/
structure Searching (held : Held) (t : TransactionId) (tuple : Bytes) (w : World) : Prop where
  busy : ¬ w.Idle t
  retains : held.Retains w.pool.locks.modeOf t
  gains : ∀ q, ¬ held.Gains w.pool.locks.modeOf t q
  search : ∀ call ∈ w.session.pending, call.call.request.tid = t →
    (∃ held install, call.call.task = .insert tuple held install) ∧ w.pool.Knows call.call

variable {w start : World} {rule rule' : World → Action → Prop} {held : Held} {t : TransactionId}
  {tuple : Bytes} {a : Action} {call : Pending Call} {j : Nat}

theorem Reaches.trans {v : World} (hw : Reaches rule start w) (hv : Reaches rule w v) :
    Reaches rule start v := by
  induction hv with
  | refl => exact hw
  | step _ ha ih => exact ih.step ha

/-- Of single calls that are made while a call of the transaction waits, all but its turns are those of
others. -/
theorem SingleCalls.ofOthers (ha : w.SingleCalls a) (hbusy : ¬ w.Idle t)
    (hother : ∀ j call, a = .turn j → w.session.pending[j]? = some call →
      call.call.request.tid ≠ t) : OfOthers t w a := by
  refine ⟨ha, ?_⟩
  cases a with
  | call step c =>
    rintro rfl
    exact hbusy ha
  | turn j => exact fun call hj => hother j call rfl hj
  | complete u commit =>
    rintro rfl
    exact hbusy ha
  | _ => trivial

/-- A waiting call of the transaction has waited before, unless it has just made its turn. -/
theorem mem_pending_of_other (howned : w.Owned) (ha : w.SingleCalls a) (hbusy : ¬ w.Idle t)
    (hother : ∀ j call, a = .turn j → w.session.pending[j]? = some call →
      call.call.request.tid ≠ t)
    (hcall : call ∈ (w.perform a).session.pending) (ht : call.call.request.tid = t) :
    call ∈ w.session.pending := by
  rcases mem_pending_perform hcall with
    hcall | ⟨step, c, call', rfl, rfl, hstart⟩ | ⟨j, call', c, rfl, hj, rfl, hrun⟩
  · exact hcall
  · obtain ⟨catalog, ⟨result, hs⟩ | ⟨call'', hs, htid, -⟩⟩ := Pool.start_cases w.pool c
    · cases hstart.symm.trans hs
    · obtain rfl := Progress.needs.inj (Prod.mk.inj (hstart.symm.trans hs)).1
      have hidle : w.Idle c.tid := ha
      rw [← htid, ht] at hidle
      exact absurd hidle hbusy
  · have hcareful := howned.careful call' (List.mem_of_getElem? hj)
    exact absurd ((hcareful.knows hrun).1.symm.trans ht) (hother j call' rfl hj)

/-- Each step of the insert and of the others leaves the insert where it holds no more than before. -/
theorem Searching.perform (h : w.Searching held t tuple) (hv : w.pool.locks.Valid)
    (hbacked : w.pool.Backed) (howned : w.Owned) (ha : Awaits t w a) :
    (w.perform a).Searching held t tuple := by
  -- either the insert takes its turn, or a step of others leaves its locks and its call
  by_cases hturn : ∃ j call, a = .turn j ∧ w.session.pending[j]? = some call ∧
      call.call.request.tid = t
  · obtain ⟨j, call, rfl, hj, rfl⟩ := hturn
    obtain ⟨⟨held', install, htask⟩, hknows⟩ :=
      h.search call (List.mem_of_getElem? hj) rfl
    have hmode := hknows.mode htask
    have hvisits := Pool.visits hbacked hv hknows htask
    rcases hrun : w.pool.runCall 1 call.call with ⟨pass, p'⟩
    rw [hrun] at hvisits
    cases hvisits with
    | goesOn hadds htid htask' hknows' =>
      have hbusy := ha.2
      simp only [World.perform, turn_of_blocked hj hrun] at hbusy ⊢
      refine ⟨hbusy, h.retains.trans (hadds.retains hmode), fun q hgains => ?_, ?_⟩
      · exact hadds.not_gains hv hmode (hgains.resolve (h.gains q))
      · exact forall_mem_set (P := fun c => c.request.tid = call.call.request.tid →
          (∃ held install, c.task = .insert tuple held install) ∧ p'.Knows c) howned.one_call hj
          (fun _ => ⟨htask', hknows'⟩) fun other _ hne ht => absurd ht hne
    | _ =>
      -- the call has ended, and was the only one of its transaction
      refine absurd ?_ ha.2
      simp only [World.perform, turn_of_ended hj hrun]
      exact forall_mem_eraseIdx (P := fun c => c.request.tid ≠ call.call.request.tid)
        howned.one_call hj fun other _ hne => hne
  · have hother : ∀ j call, a = .turn j → w.session.pending[j]? = some call →
        call.call.request.tid ≠ t :=
      fun j call hj hcall ht => hturn ⟨j, call, hj, hcall, ht⟩
    have hmodes := modeOf_perform hv (ha.1.ofOthers h.busy hother)
    have hvalid := valid_locks_perform hv a
    refine ⟨ha.2, h.retains.trans (.of_eq hmodes), fun q hgains => ?_, fun call hcall ht => ?_⟩
    · refine h.gains q ⟨hgains.1, ?_⟩
      rw [← hmodes]
      exact hgains.2
    · have hcall' := mem_pending_of_other howned ha.1 h.busy hother hcall ht
      obtain ⟨htask, hknows⟩ := h.search call hcall' ht
      refine ⟨htask, hknows.congr ?_⟩
      rw [ht]
      exact LockTable.holds_eq_of_modeOf hv hvalid hmodes _

theorem Reaches.searching {v : World} (hr : Reaches (Awaits t) w v)
    (hv : w.pool.locks.Valid) (hsturdy : w.Sturdy) (hbacked : w.pool.Backed) (howned : w.Owned)
    (h : w.Searching held t tuple) : v.Searching held t tuple := by
  induction hr with
  | refl => exact h
  | step hr ha ih =>
    exact ih.perform (hr.valid_locks hv) (hr.backed hsturdy hbacked)
      ((hr.mono fun _ _ => And.left).owned howned) ha

/-- An insert that does not end as it starts is under way then. -/
theorem searching_issue (hidle : w.Idle t) {step : Nat} {i : TableId}
    (hissue : (w.issue step (.insert t i tuple)).1 = none) :
    (w.issue step (.insert t i tuple)).2.Searching w.pool.locks.modeOf t tuple := by
  obtain ⟨catalog, ⟨result, hs⟩ | ⟨call, hs, ht, hknows⟩⟩ :=
    Pool.start_cases w.pool (.insert t i tuple)
  · simp only [issue, hs] at hissue
    contradiction
  · obtain ⟨held, htask⟩ := Pool.start_task (c := .insert t i tuple) (by rw [hs])
    simp only [issue, hs]
    refine ⟨fun hidle' => ?_, .of_eq rfl, fun q hgains => hgains.2 hgains.1, fun other hother hu => ?_⟩
    · exact hidle' ⟨step, call⟩ (List.mem_append_right _ (List.mem_singleton_self _)) ht
    · rcases List.mem_append.1 hother with hother | hother
      · exact absurd hu (hidle other hother)
      · rw [List.mem_singleton.1 hother]
        exact ⟨⟨held, true, htask⟩, hknows⟩

/-- The turn that ends an insert: it keeps what was held, and a page that it gains is the one that it
has filled, or the one that it could not load. -/
theorem Searching.ends (h : w.Searching held t tuple) (hv : w.pool.locks.Valid)
    (hbacked : w.pool.Backed) (hj : w.session.pending[j]? = some call)
    (ht : call.call.request.tid = t) {step : Nat} {result : Except Error Answer}
    (hturn : (w.turn j).1 = some (step, result)) :
    Held.Retains w.pool.locks.modeOf (w.turn j).2.pool.locks.modeOf t ∧
      (∀ answer, result = .ok answer →
        (w.turn j).2.pool.locks.modeOf t call.call.request.page = some .exclusive ∧
        w.pool.Fills (w.turn j).2.pool call.call.request.page tuple ∧
        ∀ q, held.Gains (w.turn j).2.pool.locks.modeOf t q → q = call.call.request.page) ∧
      ∀ e, result = .error e → ∀ q, held.Gains (w.turn j).2.pool.locks.modeOf t q →
        q = call.call.request.page ∧ w.pool.FailsToLoad call.call e (w.turn j).2.pool := by
  obtain ⟨⟨held', install, htask⟩, hknows⟩ := h.search call (List.mem_of_getElem? hj) ht
  have hmode := hknows.mode htask
  have hvisits := Pool.visits hbacked hv hknows htask
  have hretains := hvisits.retains (t := t) hmode
  obtain ⟨hrun, -⟩ := runCall_of_turn hj hturn
  subst ht
  rw [hrun] at hvisits hretains
  refine ⟨hretains, ?_⟩
  generalize (w.turn j).2.pool = p' at hvisits
  have hgrant (hlocks : p'.locks.modeOf = Held.grant w.pool.locks.modeOf call.call.request)
      {q : PageId} (hgains : held.Gains p'.locks.modeOf call.call.request.tid q) :
      q = call.call.request.page := by
    have hnew := hgains.resolve (h.gains q)
    rw [hlocks] at hnew
    exact hnew.of_grant hmode
  cases hvisits with
  | stops hadds =>
    refine ⟨nofun, fun _ _ q hgains => ?_⟩
    exact absurd (hgains.resolve (h.gains q)) (hadds.not_gains hv hmode)
  | fails hfails hlocks =>
    refine ⟨nofun, fun _ he q hgains => ⟨hgrant hlocks hgains, ?_⟩⟩
    rwa [← Except.error.inj he]
  | fills hfills hlocks =>
    refine ⟨fun _ _ => ⟨?_, hfills, fun q => hgrant hlocks⟩, nofun⟩
    rw [hlocks, Held.grant_of_mode hmode, if_pos ⟨rfl, rfl⟩]

/-- What a transaction has changed it holds exclusively. -/
theorem Owned.modeOf_eq (h : w.Owned) {q : PageId} (hc : w.pool.HasChanged t q) :
    w.pool.locks.modeOf t q = some .exclusive :=
  LockTable.modeOf_eq_exclusive.2 (LockTable.isWriter_iff.1 (h.owned.owner hc).1)

/-- An insert gives up no lock that its transaction held when it made the call: not at any time until
the call has ended, whoever takes steps in between and however the call ends. Nor does it ever unlock a
page that its transaction has changed. When it has stored its tuple, it has gained one lock at most,
the exclusive one on the page that it has filled; when it has failed, it has gained one lock at most, on
the page that it could not load. -/
theorem insert_keeps_locks {p : Pool} {capacity : Nat} {catalog : Catalog} {journal : Journal}
    (hs : catalog.Sound) (hp : Pool.make capacity catalog journal = .ok p)
    (hr : Reaches SingleCalls (ofPool p) w) (hidle : w.Idle t) (step : Nat) (i : TableId)
    (tuple : Bytes) :
    (∀ result, (w.issue step (.insert t i tuple)).1 = some result →
      (∃ e, result = .error e) ∧
      (w.issue step (.insert t i tuple)).2.pool.locks = w.pool.locks) ∧
    ((w.issue step (.insert t i tuple)).1 = none →
      ∀ v, Reaches (Awaits t) (w.issue step (.insert t i tuple)).2 v →
      Held.Retains w.pool.locks.modeOf v.pool.locks.modeOf t ∧
      (∀ q, v.pool.HasChanged t q → v.pool.locks.modeOf t q = some .exclusive) ∧
      ∀ j call step' result, v.session.pending[j]? = some call → call.call.request.tid = t →
        (v.turn j).1 = some (step', result) →
        Held.Retains w.pool.locks.modeOf (v.turn j).2.pool.locks.modeOf t ∧
        (∀ q, v.pool.HasChanged t q ∨ (v.turn j).2.pool.HasChanged t q →
          (v.turn j).2.pool.locks.modeOf t q = some .exclusive) ∧
        (∀ answer, result = .ok answer →
          (v.turn j).2.pool.locks.modeOf t call.call.request.page = some .exclusive ∧
          v.pool.Fills (v.turn j).2.pool call.call.request.page tuple ∧
          ∀ q, Held.Gains w.pool.locks.modeOf (v.turn j).2.pool.locks.modeOf t q →
            q = call.call.request.page) ∧
        ∀ e, result = .error e →
          ∀ q, Held.Gains w.pool.locks.modeOf (v.turn j).2.pool.locks.modeOf t q →
            q = call.call.request.page ∧
              v.pool.FailsToLoad call.call e (v.turn j).2.pool) := by
  have hsturdy := sturdy_ofPool hs hp
  have hbacked := Pool.backed_make hs hp
  have howned := owned_ofPool hp
  constructor
  · intro result hresult
    have hsound := (hr.sturdy hsturdy).pool.catalog
    rcases Pool.start_insert hsound t i tuple with
      ⟨e, p', hstart, -⟩ | ⟨layout, m, held, p', hstart, -⟩
    · have hframe := Pool.start_cases w.pool (.insert t i tuple)
      rw [hstart] at hframe
      obtain ⟨catalog, ⟨found, hs⟩ | ⟨call, hs, -⟩⟩ := hframe
      · obtain ⟨-, rfl⟩ := Prod.mk.inj hs
        simp only [issue, hstart, Progress.failed] at hresult ⊢
        exact ⟨⟨e, (Option.some.inj hresult).symm⟩, rfl⟩
      · cases (Prod.mk.inj hs).1
    · simp only [issue, hstart] at hresult
      contradiction
  · intro hissue v hv
    have hissued : Reaches SingleCalls (ofPool p) (w.issue step (.insert t i tuple)).2 :=
      hr.step (a := .call step (.insert t i tuple)) hidle
    have hreach := hissued.trans (hv.mono fun _ _ => And.left)
    have hsearching := hv.searching (hissued.valid_locks (valid_locks_ofPool hp))
      (hissued.sturdy hsturdy) (hissued.backed hsturdy hbacked) (hissued.owned howned)
      (searching_issue hidle hissue)
    have hvowned := hreach.owned howned
    refine ⟨hsearching.retains, fun q => hvowned.modeOf_eq, ?_⟩
    intro j call step' result hj ht hturn
    obtain ⟨hretains, hok, herror⟩ := hsearching.ends (hreach.valid_locks (valid_locks_ofPool hp))
      (hreach.backed hsturdy hbacked) hj ht hturn
    refine ⟨hsearching.retains.trans hretains, fun q hchanged => ?_, hok, herror⟩
    rcases hchanged with hold | hnew
    · exact hretains.exclusive (hvowned.modeOf_eq hold)
    · exact (hvowned.turn j).modeOf_eq hnew

/-- Transaction 1 has filled the first page and committed, and transaction 2 reads it. -/
def readerOfFull : World :=
  (ofPool noPages).performAll
    [.call 0 (.insert ⟨1⟩ ⟨1⟩ [7]), .turn 0, .complete ⟨1⟩ true,
      .call 1 (.fetch ⟨2⟩ ⟨⟨1⟩, 0⟩ .readOnly), .turn 0]

/-- Its insert has found that page full, and has come to a new one. -/
def pastFullPage : World :=
  (readerOfFull.issue 2 (.insert ⟨2⟩ ⟨1⟩ [8])).2.performAll [.turn 0]

/-- The insert keeps the page that it could only read before, and ends with the new one besides. -/
theorem insert_past_read_page :
    (pastFullPage.turn 0).1 = some (2, .ok .done) ∧
      (∃ mode, (pastFullPage.turn 0).2.pool.locks.modeOf ⟨2⟩ ⟨⟨1⟩, 0⟩ = some mode ∧
        mode.Covers .shared) ∧
      (pastFullPage.turn 0).2.pool.locks.modeOf ⟨2⟩ ⟨⟨1⟩, 1⟩ = some .exclusive ∧
      pastFullPage.pool.Fills (pastFullPage.turn 0).2.pool ⟨⟨1⟩, 1⟩ [8] ∧
      ∀ q, Held.Gains readerOfFull.pool.locks.modeOf
        (pastFullPage.turn 0).2.pool.locks.modeOf ⟨2⟩ q → q = ⟨⟨1⟩, 1⟩ := by
  have hreads : Reaches SingleCalls (ofPool noPages) readerOfFull :=
    Reaches.refl.performAll (by decide +kernel)
  have hidle : readerOfFull.Idle ⟨2⟩ := by decide +kernel
  have hsearches : Reaches (Awaits ⟨2⟩) (readerOfFull.issue 2 (.insert ⟨2⟩ ⟨1⟩ [8])).2
      pastFullPage := Reaches.refl.performAll (by decide +kernel)
  have hissue : (readerOfFull.issue 2 (.insert ⟨2⟩ ⟨1⟩ [8])).1 = none := by decide +kernel
  have hread : readerOfFull.pool.locks.modeOf ⟨2⟩ ⟨⟨1⟩, 0⟩ = some .shared := by decide +kernel
  have hturn : (pastFullPage.turn 0).1 = some (2, .ok .done) := by decide +kernel
  obtain ⟨-, hrun⟩ := insert_keeps_locks Catalog.sound_noPages make_noPages hreads hidle 2 ⟨1⟩ [8]
  obtain ⟨-, -, hends⟩ := hrun hissue pastFullPage hsearches
  have hwaits : pastFullPage.session.pending[0]? =
      some ⟨2, ⟨⟨⟨2⟩, ⟨⟨1⟩, 1⟩, .exclusive⟩, .insert [8] false true⟩⟩ := rfl
  obtain ⟨hretains, -, hok, -⟩ := hends 0 _ 2 _ hwaits rfl hturn
  obtain ⟨hmode, hfills, hgains⟩ := hok .done rfl
  exact ⟨hturn, hretains _ _ hread, hmode, hfills, hgains⟩

end World

end PagePool
