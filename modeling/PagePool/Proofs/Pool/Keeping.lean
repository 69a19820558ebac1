import PagePool.Proofs.Pool.Discards
import PagePool.Proofs.Pool.Standing

namespace PagePool

/-- What a task installs is the cached page that it has been handed, with other bytes. -/
theorem Task.edited?_eq_some {heap : HeapTable} {page edited : Page} {task : Task}
    (h : task.edited? heap page = some edited) :
    task.source = .cache ∧ ∃ data, edited = { page with data } := by
  cases task with
  | insert tuple heldBefore install =>
    cases install with
    | true =>
      obtain ⟨data, rfl, -⟩ := HeapTable.place?_eq_some h
      exact ⟨rfl, data, rfl⟩
    | false => contradiction
  | delete slot install =>
    cases install with
    | true =>
      obtain ⟨data, rfl, -⟩ := HeapTable.remove?_eq_some h
      exact ⟨rfl, data, rfl⟩
    | false => contradiction
  | _ => contradiction

namespace Pool

/-- The store has missed the bytes to fall back to, and the cache has them: as the page's
before-image, and as its data too unless somebody has changed it. -/
structure Keeps (p : Pool) (q : PageId) (d : Bytes) : Prop where
  cached : ∃ page, p.pages.get? q = some page ∧ page.before = d ∧
    (page.dirtiedBy = none → page.data = d)
  unsynced : q ∈ p.unsynced

variable {p p' : Pool} {q r : PageId} {d : Bytes} {page : Page} {t : TransactionId} {c : Call}

theorem changed?_eq_none (h : p.Resident) (hq : q ∉ p.dirtyPages t) : p.changed? t q = none := by
  rw [Option.eq_none_iff_forall_ne_some]
  intro d hd
  obtain ⟨page, hcached, ht, -⟩ := changed?_eq_some.1 hd
  have hid := h.id_eq hcached
  subst hid
  exact hq (List.mem_map_of_mem ((mem_dirtiedBy h).2 ⟨hcached, ht⟩))

/-! If no write of a changed page gets through, then because the store refuses it. -/

theorem refused_of_commitWrites (h : p.Intact) (hlog : (p.logCommit t).1 = .ok ())
    (hpage : page ∈ p.dirtiedBy t)
    (hrefused : ∀ x ∈ p.commitWrites t, x.page.id = page.id → x.Refused) :
    ∃ e, p.catalog.refusal? page = some e := by
  obtain ⟨result, journal, heq⟩ := logCommit_eq p t
  rw [heq] at hlog
  obtain rfl : result = .ok () := hlog
  have hlogged : ({ p with journal } : Pool).Intact := h.congr rfl rfl rfl rfl fun _ => id
  obtain ⟨k, hsame, hwrites⟩ := handles_writeCommitted.exists_turn
    (fun k page => [⟨k, page⟩]) hlogged (nodup_dirtyPages h.resident t)
    (fun page hpage => ((mem_dirtiedBy h.resident).1 hpage).1) hpage
  simp only [commitWrites, heq] at hrefused
  obtain ⟨e, he⟩ := hrefused _ (hwrites _ (List.mem_singleton_self _)) rfl
  refine ⟨e, ?_⟩
  rw [← Catalog.refusal?_of_tables hsame.tables_eq]
  exact Catalog.refusal?_eq_some.2 he

/-- An abort writes a changed page back by itself, if the store has missed its before-image. -/
theorem exists_abortWrite (h : p.Intact) (ht : p.isActive t = true) (hpage : page ∈ p.dirtiedBy t)
    (hm : p.unsynced.contains page.id = true) : ∃ x ∈ p.abortWrites t,
      x.page = page.beforeImage ∧
      (x.Refused ↔ ∃ e, p.catalog.refusal? page.beforeImage = some e) := by
  obtain ⟨k, hsame, hwrites⟩ := handles_rollBack.exists_turn rollBackWrites h
    (nodup_dirtyPages h.resident t) (fun page hpage => ((mem_dirtiedBy h.resident).1 hpage).1) hpage
  rw [rollBackWrites, if_pos (hsame.unsynced.trans hm)] at hwrites
  refine ⟨⟨k, page.beforeImage⟩, ?_, rfl, ?_⟩
  · rw [abortWrites, if_pos ht]
    exact hwrites _ (List.mem_singleton_self _)
  · simp only [← Catalog.refusal?_of_tables hsame.tables_eq, Catalog.refusal?_eq_some]
    exact Iff.rfl

theorem refused_of_abortWrites (h : p.Intact) (ht : p.isActive t = true)
    (hpage : page ∈ p.dirtiedBy t) (hm : p.unsynced.contains page.id = true)
    (hrefused : ∀ x ∈ p.abortWrites t, x.page.id = page.id → x.Refused) :
    ∃ e, p.catalog.refusal? page.beforeImage = some e := by
  obtain ⟨x, hx, hwritten, hiff⟩ := exists_abortWrite h ht hpage hm
  have hid : x.page.id = page.beforeImage.id := congrArg Page.id hwritten
  exact hiff.1 (hrefused x hx hid)

namespace Keeps

theorem of_same (h : p.Keeps q d) (hpages : p'.pages.get? q = p.pages.get? q)
    (hunsynced : q ∈ p.unsynced → q ∈ p'.unsynced) : p'.Keeps q d := by
  refine ⟨?_, hunsynced h.unsynced⟩
  rw [hpages]
  exact h.cached

theorem of_standing {on : Bool} {stored : Option Bytes}
    (h : p.standing q = ⟨some (.ofStored q d), true, on, stored⟩) : p.Keeps q d :=
  ⟨⟨_, congrArg Standing.cached h, rfl, fun _ => rfl⟩, congrArg Standing.unsynced h⟩

theorem not_evictable (h : p.Keeps q d) (hr : p.Resident) : p.recency.isEvictable q = false := by
  rw [Bool.eq_false_iff]
  intro hon
  obtain ⟨-, -, -, hsynced⟩ := hr.evictable_iff.1 hon
  exact hsynced h.unsynced

/-! What a call does to the page: at most it gives it other bytes. -/

theorem of_rereads (h : p.Keeps q d) (hr : Rereads p p') : p'.Keeps q d := by
  obtain ⟨page, hq, hbefore, hclean⟩ := h.cached
  refine ⟨⟨page, hr.pinned_stays hq (.inr h.unsynced), hbefore, hclean⟩, ?_⟩
  rw [hr.unsynced_eq]
  exact h.unsynced

theorem install (h : p.Keeps q d) (hb : p.Bounded) (hpage : page.id = q → page.before = d)
    (hi : p.install t page = .ok p') : p'.Keeps q d := by
  have hplaced {k : Pool} (hk : k.Keeps q d) : (k.addDirty t page).Keeps q d := by
    by_cases hid : q = page.id
    · exact ⟨⟨page.markDirty t, (OrdMap.get?_insert _ _ _ _).trans (if_pos hid), hpage hid.symm,
        nofun⟩, hk.unsynced⟩
    · exact hk.of_same ((OrdMap.get?_insert _ _ _ _).trans (if_neg hid)) id
  unfold Pool.install makeRoomFor at hi
  split at hi
  · split at hi
    · obtain rfl := Except.ok.inj hi
      exact hplaced h
    · cases hmade : p.makeRoom with
      | error e => simp [hmade, Except.map] at hi
      | ok k =>
        rw [hmade] at hi
        obtain rfl := Except.ok.inj hi
        exact hplaced (h.of_rereads (Rereads.makeRoom hb hmade).1)
  · contradiction

theorem deliver (h : p.Keeps q d) (hb : p.Bounded) (hpage : page.id = q → page.before = d)
    (t : TransactionId) : (p.deliver t true [page]).2.Keeps q d := by
  simp only [Pool.deliver, if_true, installAll]
  cases hi : p.install t page with
  | error e => exact h
  | ok p' => exact h.install hb hpage hi

theorem resume (h : p.Keeps q d) (hb : p.Bounded)
    (hc : ∀ source edited writes, c.task ≠ .edit source edited writes) :
    (p.resume c).2.Keeps q d := by
  generalize ho : p.resume c = o
  have hcases := resumes p c
  rw [ho] at hcases
  cases hcases with
  | stops hobtain _ => exact h.of_rereads (.obtain hb hobtain)
  | scans hobtain => exact h.of_rereads (.obtain hb hobtain)
  | @installs page k heap edited _ hobtain _ he hdelivers =>
    have hread := Rereads.obtain hb hobtain
    have hkept := h.of_rereads hread
    rw [hdelivers]
    refine hkept.deliver hread.bounded (fun hid => ?_) _
    -- the page was handed out as it is cached, and its before-image goes with it
    obtain ⟨hsource, data, rfl⟩ := Task.edited?_eq_some he
    rw [hsource] at hobtain
    obtain ⟨hq, -⟩ := read_eq_ok hobtain
    have hrequest : page.id = c.request.page := hread.bounded.resident.id_eq hq
    obtain ⟨cached, hcached, hbefore, -⟩ := hkept.cached
    rw [← hid, hrequest, hq] at hcached
    exact (congrArg Page.before (Option.some.inj hcached)).trans hbefore
  | @seeks page k k' tuple heldBefore install n _ hobtain _ hk hseeks =>
    have hkept := h.of_rereads (.obtain hb hobtain)
    have hreleased : k'.Keeps q d := by
      rw [hk]
      cases heldBefore with
      | true => exact hkept
      | false => exact hkept.of_same rfl id
    obtain ⟨catalog, ⟨e, hs⟩ | ⟨c', hs, -⟩⟩ :=
      seekRoom_cases k' c.request.tid c.request.page.table n tuple install
    · rw [hseeks, hs]
      exact hreleased.of_same rfl id
    · rw [hseeks, hs]
      exact hreleased.of_same rfl id
  | edits _ htask => exact absurd htask (hc _ _ _)

theorem turn (h : p.Keeps q d) (hb : p.Bounded)
    (hc : ∀ source edited writes, c.task ≠ .edit source edited writes) :
    (p.runCall 1 c).2.Keeps q d := by
  have hlocked (locks : LockTable) : ({ p with locks } : Pool).Keeps q d := h.of_same rfl id
  rcases runCall_one_cases p c with
    ⟨locks, -, hrun | ⟨e, hrun⟩⟩ | ⟨locks, -, ⟨r, p', hresume, hrun⟩ | ⟨c', p', hresume, hrun⟩⟩
  · rw [hrun]
    exact hlocked locks
  · rw [hrun]
    exact hlocked locks
  all_goals
    have hgoes := (hlocked locks).resume (Rereads.locks hb locks).bounded hc
    rw [hresume] at hgoes
    rwa [hrun]

/-! Completions and flushes whose writes of the page are refused. -/

theorem commit (h : p.Keeps q d) (hi : p.Intact)
    (hrefused : ∀ x ∈ p.commitWrites t, x.page.id = q → x.Refused) :
    (p.commit t).2.Keeps q
      (match (p.logCommit t).1 with
        | .ok _ => (p.changed? t q).getD d
        | .error _ => d) := by
  cases hlog : (p.logCommit t).1 with
  | error e =>
    rcases commit_cases p t with ⟨e', journal, -, hc⟩ | ⟨journal, stats, hok, -⟩
    · rw [hc]
      exact h.of_same rfl id
    · rw [hlog] at hok
      contradiction
  | ok u =>
    have hhandled := handled_commit hi hlog
    by_cases hq : q ∈ p.dirtyPages t
    · obtain ⟨page, hpage, rfl⟩ := List.mem_map.1 hq
      obtain ⟨hcached, ht⟩ := (mem_dirtiedBy hi.resident).1 hpage
      have hchanged : p.changed? t page.id = some page.data :=
        changed?_eq_some.2 ⟨page, hcached, ht, rfl⟩
      obtain ⟨e, he⟩ := refused_of_commitWrites hi hlog hpage hrefused
      have hstanding := hhandled.standing page hpage
      simp only [committedStanding, he] at hstanding
      simp only [hchanged]
      exact of_standing hstanding
    · have hsame := hhandled.others q hq
      simp only [changed?_eq_none hi.resident hq]
      exact h.of_same (congrArg Standing.cached hsame)
        fun hm => (congrArg Standing.unsynced hsame).trans hm

theorem abort (h : p.Keeps q d) (hi : p.Intact)
    (hrefused : ∀ x ∈ p.abortWrites t, x.page.id = q → x.Refused) :
    (p.abort t).2.Keeps q d := by
  have hhandled := handled_abort hi t
  by_cases hq : q ∈ p.dirtyPages t
  · obtain ⟨page, hpage, rfl⟩ := List.mem_map.1 hq
    obtain ⟨hcached, ht⟩ := (mem_dirtiedBy hi.resident).1 hpage
    have hm : p.unsynced.contains page.id = true := h.unsynced
    obtain ⟨e, he⟩ := refused_of_abortWrites hi (hi.owner_active hcached ht) hpage hm hrefused
    have hbefore : page.before = d := by
      obtain ⟨cached, hpages, hbefore, -⟩ := h.cached
      rw [hcached] at hpages
      rwa [Option.some.inj hpages]
    have hstanding := hhandled.standing page hpage
    simp only [rolledBackStanding, hm, if_true, he] at hstanding
    rw [← hbefore]
    exact of_standing hstanding
  · have hsame := hhandled.others q hq
    exact h.of_same (congrArg Standing.cached hsame)
      fun hm => (congrArg Standing.unsynced hsame).trans hm

/-- A flush of the page itself makes one write at most. -/
theorem flush_self (h : p.Keeps q d) (hi : p.Intact)
    (hrefused : ∀ x ∈ p.flushWrites q, x.page.id = q → x.Refused) : (p.flush q).2.Keeps q d := by
  obtain ⟨page, hq, -⟩ := h.cached
  have hid := hi.resident.id_eq hq
  subst hid
  have hm : p.unsynced.contains page.id = true := h.unsynced
  simp only [flushWrites, Pool.flush, hq] at hrefused ⊢
  cases hown : page.dirtiedBy with
  | some owner =>
    obtain ⟨result, journal, hlog⟩ := logFlush_eq p owner page
    simp only [hown, flushDirty, hlog] at hrefused ⊢
    cases result with
    | error e => exact h.of_same rfl id
    | ok u =>
      obtain ⟨e, he⟩ := hrefused _ (List.mem_singleton_self _) rfl
      simp only at he
      simp only [he]
      exact h.of_same rfl id
  | none =>
    simp only [hown, flushClean, hm, if_true] at hrefused ⊢
    obtain ⟨e, he⟩ := hrefused _ (List.mem_singleton_self _) rfl
    simp only at he
    simp only [he]
    exact h

theorem flush_of_ne (h : p.Keeps q d) (hi : p.Intact) (hne : q ≠ r) :
    (p.flush r).2.Keeps q d := by
  rcases flush_cases p r hi.owner_active with
    ⟨journal, hf⟩ | ⟨page, catalog, journal, hr, -, hrest⟩
  · rw [hf]
    exact h.of_same rfl id
  have hid := hi.resident.id_eq hr
  subst hid
  rcases hrest with ⟨owner, -, hf⟩ | ⟨-, hf⟩
  · rw [hf]
    exact h.of_same rfl fun hm => OrdSet.mem_insert.2 (.inr (OrdSet.mem_erase.2 ⟨hne, hm⟩))
  · rw [hf]
    exact h.of_same ((get?_settlePage _ _ _ _).trans (if_neg hne)) fun hm =>
      OrdSet.mem_erase.2 ⟨hne, hm⟩

theorem flush (h : p.Keeps q d) (hi : p.Intact)
    (hrefused : ∀ x ∈ p.flushWrites r, x.page.id = q → x.Refused) :
    (p.flush r).2.Keeps q d := by
  by_cases hq : q = r
  · subst hq
    exact h.flush_self hi hrefused
  · exact h.flush_of_ne hi hq

theorem flushEach {rs : List PageId} (h : p.Keeps q d) (hi : p.Intact)
    (hrefused : ∀ x ∈ p.flushEachWrites rs, x.page.id = q → x.Refused) :
    (p.flushEach rs).2.Keeps q d := by
  induction rs generalizing p with
  | nil => exact h
  | cons r rs ih =>
    have hfirst := h.flush hi fun x hx => hrefused x (List.mem_append_left _ hx)
    have hrest := fun x hx => hrefused x (List.mem_append_right _ hx)
    have hsteady := Steady.flush hi r
    unfold Pool.flushEach
    rcases hf : p.flush r with ⟨result, p'⟩
    rw [hf] at hfirst hsteady hrest
    cases result with
    | error e => exact hfirst
    | ok u => exact ih hfirst hsteady.intact hrest

/-- Once a flush of the page succeeds the store has the bytes, unless somebody has changed them. -/
theorem stored_of_flush (h : p.Keeps q d) (hi : p.Intact)
    (hclean : ∀ page, p.pages.get? q = some page → page.dirtiedBy = none)
    (hok : (p.flush q).1 = .ok ()) : (p.flush q).2.catalog.stored? q = some d := by
  obtain ⟨page, hq, -, hdata⟩ := h.cached
  have hid := hi.resident.id_eq hq
  subst hid
  have hnobody := hclean page hq
  have hm : p.unsynced.contains page.id = true := h.unsynced
  simp only [Pool.flush, hq, hnobody, flushClean, hm, if_true] at hok ⊢
  cases hw : p.catalog.writePage page with
  | error e =>
    rw [hw] at hok
    contradiction
  | ok catalog =>
    rw [← hdata hnobody]
    exact (Catalog.stored?_writePage hi.catalog hw page.id).trans (if_pos rfl)

end Keeps

end Pool

namespace World

/-- A step that does not discard the page, and whose writes of it are all refused. -/
def Unwritten (q : PageId) (w : World) (a : Action) : Prop :=
  a ≠ .discard q ∧ ∀ x ∈ w.writes a, x.page.id = q → x.Refused

/-- The committed bytes of the page after a step: a commit that gets past its log commits what its
transaction has changed. -/
def noteCommitted (q : PageId) (w : World) (d : Bytes) : Action → Bytes
  | .complete t true =>
    match (w.pool.logCommit t).1 with
    | .ok _ => (w.pool.changed? t q).getD d
    | .error _ => d
  | _ => d

variable {w start : World} {q : PageId} {d first : Bytes} {a : Action}

theorem keeps_perform (h : w.pool.Keeps q d) (hi : w.Sturdy) (hb : w.pool.Bounded)
    (ha : w.Unwritten q a) : (w.perform a).pool.Keeps q (w.noteCommitted q d a) := by
  obtain ⟨hdiscard, hrefused⟩ := ha
  cases a with
  | begin => exact h.of_same rfl id
  | call step c =>
    obtain ⟨catalog, ⟨result, hs⟩ | ⟨call, hs, -⟩⟩ := Pool.start_cases w.pool c
    · simp only [perform, issue, hs]
      exact h.of_same rfl id
    · simp only [perform, issue, hs]
      exact h.of_same rfl id
  | turn i =>
    simp only [perform]
    cases hcall : w.session.pending[i]? with
    | none =>
      rw [turn_of_absent hcall]
      exact h
    | some call =>
      rw [pool_turn hcall]
      refine h.turn hb fun source edited writes htask => ?_
      have hfits := hi.calls call (List.mem_of_getElem? hcall)
      rw [Call.Fits, htask] at hfits
      exact hfits
  | complete t commit =>
    cases commit with
    | true => exact h.commit hi.pool hrefused
    | false => exact h.abort hi.pool hrefused
  | flush r => exact h.flush hi.pool hrefused
  | flushAll => exact h.flushEach hi.pool hrefused
  | flushOf t => exact h.flushEach hi.pool hrefused
  | discard r =>
    have hne : q ≠ r := fun he => hdiscard (he ▸ rfl)
    simp only [perform, withPool, pool]
    unfold Pool.discard
    split
    · exact h.of_same ((OrdMap.get?_erase _ _ _).trans (if_neg hne)) fun hm =>
        OrdSet.mem_erase.2 ⟨hne, hm⟩
    · exact h
  | releaseLock t r => exact h.of_same rfl id
  | failStore table faults =>
    simp only [perform]
    cases w.pool.catalog.setFaults table faults with
    | error e => exact h
    | ok catalog => exact h.of_same rfl id
  | failLog refuses forceFails => exact h.of_same rfl id

/-- A page that the store has missed stays in the cache with its committed bytes, through all steps
of all callers, until it is written. -/
theorem Tallies.keeps (hw : Tallies (noteCommitted q) (Unwritten q) start first w d)
    (h : start.pool.Keeps q first) (hi : start.Sturdy) (hb : start.pool.Bounded) :
    w.pool.Keeps q d := by
  have hreaches {w' : World} {d' : Bytes}
      (hw : Tallies (noteCommitted q) (Unwritten q) start first w' d') :
      w'.Sturdy ∧ w'.pool.Bounded :=
    ⟨hw.reaches.sturdy hi, (hw.reaches.bounded hb).1⟩
  induction hw with
  | refl => exact h
  | step hprev ha ih =>
    obtain ⟨hsturdy, hbounded⟩ := hreaches hprev
    exact keeps_perform ih hsturdy hbounded ha

end World

end PagePool
