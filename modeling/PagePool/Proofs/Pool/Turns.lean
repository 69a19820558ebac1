import PagePool.Pool.Blocking
import PagePool.Proofs.Pool.Agreement

namespace PagePool.Pool

/-- What a call of one transaction may do, as the others see it: the pool keeps agreeing, their
locks and their changes stay, nothing is committed or taken back, and no stored page changes. -/
structure Advances (t : TransactionId) (p : Pool) (l : Ledger) (p' : Pool) (l' : Ledger) :
    Prop where
  agrees : p'.Agrees l'
  layout_eq : p'.catalog.layout? = p.catalog.layout?
  unsynced_eq : p'.unsynced = p.unsynced
  stored_stays : ∀ {q d}, p.catalog.stored? q = some d → p'.catalog.stored? q = some d
  holds_eq : ∀ {u q}, u ≠ t → p'.locks.holds u q = p.locks.holds u q
  committed_eq : l'.committed = l.committed
  pending_eq : ∀ {u q}, u ≠ t → l'.pending u q = l.pending u q
  pending_stays : ∀ {u q}, (l.pending u q).isSome = true → (l'.pending u q).isSome = true

/-- What a call that waits for its next lock relies on. A search knows of each page whether its
lock is its own to give up; a scan holds the pages it has seen, and has found what is on them. -/
def Waits (p : Pool) (l : Ledger) (pages : List PageId) (c : Call) : Prop :=
  match c.task with
  | .fetch => True
  | .insert _ heldBefore install =>
    c.request.mode = .exclusive ∧ install = true ∧
      (heldBefore = false → l.pending c.request.tid c.request.page = none)
  | .delete _ install => c.request.mode = .exclusive ∧ install = true
  | .scan rest found =>
    ∃ seen, pages = seen ++ c.request.page :: rest ∧
      (∀ q ∈ seen, p.locks.holds c.request.tid q = true) ∧
      found = seen.flatMap (l.tuplesIn p.catalog.layout? c.request.tid)
  | .edit _ _ _ => False

/-- What a call that succeeds hands out: its transaction's page, or the tuples on all the pages of
its scan. -/
def Answers (p : Pool) (l : Ledger) (pages : List PageId) (c : Call) : Except Error Answer → Prop
  | .error _ => True
  | .ok answer =>
    match c.task with
    | .fetch => answer = .page (l.page c.request.tid c.request.page)
    | .scan _ _ => answer = .tuples (pages.flatMap (l.tuplesIn p.catalog.layout? c.request.tid))
    | _ => answer = .done

/-- What a task may go on as, after its lock was granted: a search for the same tuple, or a scan. -/
def GoesOn : Task → Task → Prop
  | .insert tuple _ _, .insert tuple' _ _ => tuple' = tuple
  | .scan _ _, .scan _ _ => True
  | _, _ => False

/-- A call ends with a result that it may end with, or goes on to wait for another lock. -/
inductive Goes (t : TransactionId) (p : Pool) (l : Ledger) (pages : List PageId)
    (ends : Except Error Answer → Ledger → Prop) (next : Task → Prop) :
    Progress × Pool → Prop where
  | ended {result p' l'} : ends result l' → Advances t p l p' l' →
      Goes t p l pages ends next (.ended result, p')
  | needs {c p'} : c.request.tid = t → next c.task → Waits p' l pages c → Advances t p l p' l →
      Goes t p l pages ends next (.needs c, p')

variable {p p' p'' : Pool} {l l' l'' : Ledger} {pages : List PageId} {c : Call}
  {q : PageId} {page : Page} {t : TransactionId} {heap : HeapTable}
  {result : Except Error Page} {ends : Except Error Answer → Ledger → Prop} {next : Task → Prop}

namespace Advances

theorem refl (h : p.Agrees l) : Advances t p l p l :=
  ⟨h, rfl, rfl, id, fun _ => rfl, rfl, fun _ => rfl, id⟩

theorem trans (h : Advances t p l p' l') (h' : Advances t p' l' p'' l'') :
    Advances t p l p'' l'' where
  agrees := h'.agrees
  layout_eq := h'.layout_eq.trans h.layout_eq
  unsynced_eq := h'.unsynced_eq.trans h.unsynced_eq
  stored_stays hd := h'.stored_stays (h.stored_stays hd)
  holds_eq hu := (h'.holds_eq hu).trans (h.holds_eq hu)
  committed_eq := h'.committed_eq.trans h.committed_eq
  pending_eq hu := (h'.pending_eq hu).trans (h.pending_eq hu)
  pending_stays hu := h'.pending_stays (h.pending_stays hu)

theorem view_eq (h : Advances t p l p' l') {u : TransactionId} (hu : u ≠ t) :
    l'.view u q = l.view u q :=
  Ledger.view_congr (by rw [h.committed_eq]) (h.pending_eq hu)

/-- Only the locks of the transaction itself and the cache have changed. -/
theorem same_ledger (h : p'.Agrees l) (hcatalog : p'.catalog = p.catalog)
    (hunsynced : p'.unsynced = p.unsynced)
    (hholds : ∀ {u q}, u ≠ t → p'.locks.holds u q = p.locks.holds u q) : Advances t p l p' l where
  agrees := h
  layout_eq := by rw [hcatalog]
  unsynced_eq := hunsynced
  stored_stays hd := by rwa [hcatalog]
  holds_eq := hholds
  committed_eq := rfl
  pending_eq _ := rfl
  pending_stays := id

theorem acquire (h : p.Agrees l) (r : LockRequest) :
    Advances r.tid p l { p with locks := (p.locks.acquire r).2 } l := by
  refine same_ledger ?_ rfl rfl ?_
  · refine h.withLocks (h.locks.acquire r) ?_
    intro u q page hq hu
    exact LockTable.isWriter_acquire (h.owner hq hu).1
  · intro u q hu
    exact LockTable.holds_acquire_of_ne hu

/-- A lock may be given up early on a page that its transaction has not changed. -/
theorem releaseLock (h : p.Agrees l) (hnone : l.pending t q = none) :
    Advances t p l (p.releaseLock t q) l := by
  refine same_ledger ?_ rfl rfl ?_
  · refine h.withLocks (h.locks.release t q) ?_
    intro u r page hr hu
    apply LockTable.isWriter_release (h.owner hr hu).1
    rintro ⟨rfl, rfl⟩
    exact h.pending_eq_none_iff.1 hnone page hr hu
  · intro u r hu
    exact LockTable.holds_release_of_ne hu

end Advances

/-- A read works on the cache; locks, store and unsynced pages stay. -/
theorem read_frame (h : p.read t q = (result, p')) :
    p'.locks = p.locks ∧ p'.catalog = p.catalog ∧ p'.unsynced = p.unsynced := by
  have hroom {p₁ p₂ : Pool} (hr : p₁.makeRoom = .ok p₂) :
      p₂.locks = p₁.locks ∧ p₂.catalog = p₁.catalog ∧ p₂.unsynced = p₁.unsynced := by
    rcases makeRoom_eq_ok hr with rfl | he
    · exact ⟨rfl, rfl, rfl⟩
    · obtain ⟨victim, -, rfl⟩ := evict_eq_ok he
      exact ⟨rfl, rfl, rfl⟩
  rcases read_cases p t q with ⟨page, -, hr⟩ | ⟨-, ⟨e, hr⟩ | ⟨p₁, hmade, ⟨e, hr⟩ | ⟨stored, -, hr⟩⟩⟩
  · obtain ⟨-, rfl⟩ := Prod.mk.inj (hr.symm.trans h)
    exact ⟨rfl, rfl, rfl⟩
  · obtain ⟨-, rfl⟩ := Prod.mk.inj (hr.symm.trans h)
    exact ⟨rfl, rfl, rfl⟩
  · obtain ⟨-, rfl⟩ := Prod.mk.inj (hr.symm.trans h)
    have hkept := hroom hmade
    exact hkept
  · obtain ⟨-, rfl⟩ := Prod.mk.inj (hr.symm.trans h)
    have hkept := hroom hmade
    exact hkept

/-- A page that is handed out is cached, and its reader active. -/
theorem read_eq_ok (h : p.read t q = (.ok page, p')) :
    p'.pages.get? q = some page ∧ p'.isActive t = true := by
  have hself (s : OrdSet TransactionId) : (s.insert t).contains t = true :=
    OrdSet.mem_insert.2 (.inl rfl)
  rcases read_cases p t q with ⟨cached, hq, hr⟩ | ⟨-, ⟨e, hr⟩ | ⟨p₁, hmade, ⟨e, hr⟩ | ⟨stored, hs, hr⟩⟩⟩
  · obtain ⟨hcached, rfl⟩ := Prod.mk.inj (hr.symm.trans h)
    rw [← Except.ok.inj hcached]
    exact ⟨hq, hself _⟩
  · cases (Prod.mk.inj (hr.symm.trans h)).1
  · cases (Prod.mk.inj (hr.symm.trans h)).1
  · obtain ⟨hstored, rfl⟩ := Prod.mk.inj (hr.symm.trans h)
    obtain rfl := Except.ok.inj hstored
    obtain ⟨d, rfl⟩ := Catalog.eq_ofStored_of_readPage hs
    have hactive : p₁.active = p.active.insert t := by
      rcases makeRoom_eq_ok hmade with rfl | he
      · rfl
      · obtain ⟨victim, -, rfl⟩ := evict_eq_ok he
        rfl
    refine ⟨?_, ?_⟩
    · refine (OrdMap.get?_insert _ _ _ _).trans (if_pos rfl)
    · rw [isActive, addClean, hactive]
      exact hself _

theorem advances_read (h : p.Agrees l) (hr : p.read t q = (result, p')) : Advances t p l p' l := by
  obtain ⟨hlocks, hcatalog, hunsynced⟩ := read_frame hr
  have hagrees := h.read t q
  rw [hr] at hagrees
  exact Advances.same_ledger hagrees hcatalog hunsynced fun _ => by rw [hlocks]

/-- What the end of a turn may be: the ledger takes note of an edit, and what is handed out is
what the ledger has. -/
def TurnEnds (p : Pool) (l : Ledger) (pages : List PageId) (c : Call)
    (result : Except Error Answer) (l' : Ledger) : Prop :=
  l' = l.record p.catalog.layout? c result ∧ Answers p l pages c result

theorem turnEnds_error (p : Pool) (l : Ledger) (pages : List PageId) (c : Call) (e : Error) :
    TurnEnds p l pages c (.error e) l :=
  ⟨rfl, trivial⟩

/-- A search that goes on asks for one page exclusively, and knows whether it held it before. -/
theorem goes_seekRoom {tuple : Bytes} (h : p.Agrees l) (hfail : ∀ e, ends (.error e) l)
    (hnext : ∀ held, next (.insert tuple held true)) (t : TransactionId) (table : TableId)
    (pageNo : UInt32) : Goes t p l pages ends next (p.seekRoom t table pageNo tuple true) := by
  unfold seekRoom
  cases ht : p.catalog.table table with
  | error e => exact .ended (hfail e) (.refl h)
  | ok heap =>
    have hget := Catalog.table_eq_ok.1 ht
    have hagrees : ({ p with catalog := (p.catalog.pageOrGrow heap pageNo).2 } : Pool).Agrees l :=
      h.withCatalog (Catalog.sound_pageOrGrow h.catalog hget pageNo)
        (Catalog.pageSize_pageOrGrow p.catalog heap pageNo)
        (Catalog.stored?_pageOrGrow h.catalog hget pageNo)
    have hlayout : (p.catalog.pageOrGrow heap pageNo).2.layout? = p.catalog.layout? :=
      funext (Catalog.layout?_pageOrGrow h.catalog hget pageNo)
    have hstored {q : PageId} {d : Bytes} (hd : p.catalog.stored? q = some d) :
        (p.catalog.pageOrGrow heap pageNo).2.stored? q = some d := by
      rcases Catalog.stored?_pageOrGrow h.catalog hget pageNo q with hsame | ⟨hnone, -⟩
      · exact hsame.trans hd
      · rw [hnone] at hd
        contradiction
    simp only
    rcases hgrow : p.catalog.pageOrGrow heap pageNo with ⟨found, catalog⟩
    rw [hgrow] at hagrees hlayout hstored
    have hadvances : Advances t p l { p with catalog } l :=
      ⟨hagrees, hlayout, rfl, hstored, fun _ => rfl, rfl, fun _ => rfl, id⟩
    cases found with
    | error e => exact .ended (hfail e) hadvances
    | ok n =>
      refine .needs rfl (hnext _) ⟨rfl, rfl, ?_⟩ hadvances
      intro hheld
      apply h.pending_eq_none_iff.2
      intro page hq ht
      have hheld' := h.locks.holds_of_isWriter (h.owner hq ht).1
      rw [hheld] at hheld'
      contradiction

/-- A page that its writer has changed takes its place in the cache. -/
theorem goes_deliver {d : Bytes} (h : p.Agrees l) (hq : p.pages.get? q = some (l.page t q))
    (hw : p.locks.isWriter t q = true) (ht : p.isActive t = true)
    (hends : ends (.ok .done) (l.set t q d)) :
    Goes t p l pages ends next (p.deliver t true [{ l.page t q with data := d }]) := by
  have hcached : p.pages.contains q = true := isCached_iff.2 ⟨_, hq⟩
  have hinstall : p.install t { l.page t q with data := d } =
      .ok (p.addDirty t { l.page t q with data := d }) := by
    have hw' : p.locks.isWriter t (l.page t q).id = true := hw
    have hcached' : p.pages.contains (l.page t q).id = true := hcached
    simp only [install, hw', makeRoomFor, hcached', if_true]
    rfl
  have hagrees : (p.addDirty t { l.page t q with data := d }).Agrees (l.set t q d) :=
    h.addDirty hq rfl hw ht
  simp only [deliver, if_true, installAll, hinstall]
  refine .ended hends ⟨hagrees, rfl, rfl, id, fun _ => rfl, rfl, ?_, ?_⟩
  · intro u r hu
    simp [Ledger.set, hu]
  · intro u r hu
    simp only [Ledger.set]
    split
    · rfl
    · exact hu

/-- A scan goes on with a page more, or ends with the tuples of all its pages. -/
theorem goes_scanNext {seen rest : List PageId} {found : List StoredTuple} (h : p.Agrees l)
    (hpages : pages = seen ++ rest) (hseen : ∀ q ∈ seen, p.locks.holds t q = true)
    (hfound : found = seen.flatMap (l.tuplesIn p.catalog.layout? t))
    (hends : rest = [] → ends (.ok (.tuples found)) l)
    (hnext : ∀ rest found, next (.scan rest found)) :
    Goes t p l pages ends next (p.scanNext t rest found) := by
  cases rest with
  | nil => exact .ended (hends rfl) (.refl h)
  | cons q rest => exact .needs rfl (hnext _ _) ⟨seen, hpages, hseen, hfound⟩ (.refl h)

theorem Goes.of_advances (hfirst : Advances t p l p' l) {o : Progress × Pool}
    (h : Goes t p' l pages ends next o) : Goes t p l pages ends next o := by
  cases h with
  | ended he ha => exact .ended he (hfirst.trans ha)
  | needs ht hn hw ha => exact .needs ht hn hw (hfirst.trans ha)

theorem layout?_of_table {catalog : Catalog} {i : TableId} (h : catalog.table i = .ok heap) :
    catalog.layout? i = some heap.layout := by
  rw [Catalog.layout?, Catalog.table_eq_ok.1 h]
  rfl

theorem tuplesOn_page {catalog : Catalog} (h : catalog.table q.table = .ok heap) :
    heap.tuplesOn (l.page t q) = l.tuplesIn catalog.layout? t q := by
  simp only [Ledger.tuplesIn, layout?_of_table h]
  rfl

theorem goes_continueOn {r : LockRequest} {task : Task} (h : p.Agrees l)
    (hq : p.pages.get? r.page = some (l.page r.tid r.page)) (hactive : p.isActive r.tid = true)
    (hheld : p.locks.holds r.tid r.page = true)
    (hw : r.mode = .exclusive → p.locks.isWriter r.tid r.page = true)
    (hheap : p.catalog.table r.page.table = .ok heap) (hc : Waits p l pages ⟨r, task⟩) :
    Goes r.tid p l pages (TurnEnds p l pages ⟨r, task⟩) (GoesOn task)
      (p.continueOn r heap (l.page r.tid r.page) task) := by
  have hlayout := layout?_of_table hheap
  cases task with
  | fetch => exact .ended ⟨rfl, rfl⟩ (.refl h)
  | insert tuple heldBefore install =>
    obtain ⟨hmode, rfl, hfresh⟩ := hc
    unfold continueOn HeapTable.place?
    cases hslot : heap.layout.freeSlot (l.page r.tid r.page).data with
    | some slot =>
      refine goes_deliver h hq (hw hmode) hactive ⟨?_, rfl⟩
      have hview : heap.layout.freeSlot (l.view r.tid r.page) = some slot := hslot
      simp only [Ledger.record, hlayout, Ledger.edit, hview]
      rfl
    | none =>
      simp only [Option.map_none]
      cases heldBefore with
      | true => exact goes_seekRoom h (turnEnds_error p l pages _) (fun _ => rfl) _ _ _
      | false =>
        -- a lock that was taken for the look at a full page goes back
        have hreleased : Advances r.tid p l (p.releaseLock r.tid r.page) l :=
          .releaseLock h (hfresh rfl)
        exact (goes_seekRoom hreleased.agrees (turnEnds_error p l pages _) (fun _ => rfl) _ _
          _).of_advances hreleased
  | delete slot install =>
    obtain ⟨hmode, rfl⟩ := hc
    unfold continueOn HeapTable.remove?
    by_cases hused : heap.layout.isUsed (l.page r.tid r.page).data slot.toNat = true
    · simp only [hused, if_true]
      refine goes_deliver h hq (hw hmode) hactive ⟨?_, rfl⟩
      simp only [Ledger.record, hlayout, Ledger.edit]
      rfl
    · simp only [hused]
      exact .ended (turnEnds_error p l pages _ _) (.refl h)
  | scan rest found =>
    obtain ⟨seen, hpages, hseen, hfound⟩ := hc
    have hpages' : pages = (seen ++ [r.page]) ++ rest := by
      rw [hpages, List.append_assoc]
      rfl
    have hfound' : found ++ heap.tuplesOn (l.page r.tid r.page) =
        (seen ++ [r.page]).flatMap (l.tuplesIn p.catalog.layout? r.tid) := by
      rw [tuplesOn_page hheap, List.flatMap_append, ← hfound, List.flatMap_singleton]
    refine goes_scanNext h hpages' ?_ hfound' ?_ fun _ _ => trivial
    · intro q hq
      rcases List.mem_append.1 hq with hq | hq
      · exact hseen q hq
      · rw [List.mem_singleton.1 hq]
        exact hheld
    · rintro rfl
      refine ⟨rfl, ?_⟩
      rw [List.append_nil] at hpages'
      exact congrArg Answer.tuples (hpages' ▸ hfound')
  | edit source edited writes => exact hc.elim

/-- A call whose lock has been granted goes on as the ledger says. -/
theorem goes_resume (h : p.Agrees l)
    (hheld : p.locks.holds c.request.tid c.request.page = true)
    (hw : c.request.mode = .exclusive →
      p.locks.isWriter c.request.tid c.request.page = true) (hc : Waits p l pages c) :
    Goes c.request.tid p l pages (TurnEnds p l pages c) (GoesOn c.task) (p.resume c) := by
  obtain ⟨r, task⟩ := c
  have hsource : task.source = .cache := by
    cases task with
    | edit source edited writes => exact hc.elim
    | _ => rfl
  unfold resume
  rcases hr : p.obtain r task.source with ⟨result, p₁⟩
  simp only
  rw [hsource] at hr
  have hread : p.read r.tid r.page = (result, p₁) := hr
  have hadvances := advances_read h hread
  cases result with
  | error e => exact .ended (turnEnds_error p l pages _ e) hadvances
  | ok page =>
    obtain ⟨hq, hactive⟩ := read_eq_ok hread
    obtain ⟨hlocks, hcatalog, -⟩ := read_frame hread
    have hheld' : p₁.locks.holds r.tid r.page = true := by
      rw [hlocks]
      exact hheld
    -- nobody else can have changed a page that is held
    obtain rfl := hadvances.agrees.eq_page hheld' hq
    simp only
    cases hheap : p₁.catalog.table r.page.table with
    | error e => exact .ended (turnEnds_error p l pages _ e) hadvances
    | ok heap =>
      have hsame : TurnEnds p l pages ⟨r, task⟩ = TurnEnds p₁ l pages ⟨r, task⟩ := by
        funext result l'
        simp only [TurnEnds, Answers, hcatalog]
      have hc' : Waits p₁ l pages ⟨r, task⟩ := by
        simpa only [Waits, hlocks, hcatalog] using hc
      rw [hsame]
      refine (goes_continueOn hadvances.agrees hq hactive hheld' ?_ hheap hc').of_advances hadvances
      rw [hlocks]
      exact hw

theorem Waits.of_holds (hc : Waits p l pages c) (hcatalog : p'.catalog = p.catalog)
    (hholds : ∀ q, p.locks.holds c.request.tid q = true → p'.locks.holds c.request.tid q = true) :
    Waits p' l pages c := by
  obtain ⟨r, task⟩ := c
  cases task with
  | scan rest found =>
    obtain ⟨seen, hpages, hseen, hfound⟩ := hc
    refine ⟨seen, hpages, fun q hq => hholds q (hseen q hq), ?_⟩
    rw [hcatalog]
    exact hfound
  | _ => exact hc

/-- One lock request of a call: it goes on waiting, for this lock or its next one, or it ends. -/
theorem turn_cases (h : p.Agrees l) (hc : Waits p l pages c) :
    (∃ c' p', p.runCall 1 c = (.blocked c', p') ∧ c'.request.tid = c.request.tid ∧
      (c' = c ∨ GoesOn c.task c'.task) ∧ Waits p' l pages c' ∧
      Advances c.request.tid p l p' l) ∨
    ∃ result p', p.runCall 1 c = (.ended result, p') ∧ Answers p l pages c result ∧
      Advances c.request.tid p l p' (l.record p.catalog.layout? c result) := by
  have hlocked := Advances.acquire h c.request
  rcases ha : p.locks.acquire c.request with ⟨attempt, locks⟩
  rw [ha] at hlocked
  have hkeep (q : PageId) (hq : p.locks.holds c.request.tid q = true) :
      locks.holds c.request.tid q = true := by
    have hq' := LockTable.holds_acquire (r := c.request) hq
    rwa [ha] at hq'
  have hc' : Waits { p with locks } l pages c := hc.of_holds rfl hkeep
  cases attempt with
  | waits =>
    refine .inl ⟨c, { p with locks }, ?_, rfl, .inl rfl, hc', hlocked⟩
    simp only [runCall, ha]
  | deadlock =>
    refine .inr ⟨.error (.transactionAborted c.request.tid), { p with locks }, ?_, trivial, hlocked⟩
    simp only [runCall, ha]
  | granted =>
    have hheld := h.locks.holds_of_granted ha
    have hgoes := goes_resume hlocked.agrees hheld (LockTable.isWriter_of_granted ha) hc'
    simp only [runCall, ha]
    rcases hresume : ({ p with locks } : Pool).resume c with ⟨progress, p'⟩
    rw [hresume] at hgoes
    cases hgoes with
    | ended hends hadvances =>
      obtain ⟨rfl, hanswers⟩ := hends
      exact .inr ⟨_, p', rfl, hanswers, hlocked.trans hadvances⟩
    | needs ht hnext hwaits hadvances =>
      exact .inl ⟨_, p', rfl, ht, .inr hnext, hwaits, hlocked.trans hadvances⟩

end PagePool.Pool
