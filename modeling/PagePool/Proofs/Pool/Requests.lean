import PagePool.Proofs.Pool.World

namespace PagePool

/-- The page that a task installs, made from the one that it has obtained. -/
def Task.edited? (heap : HeapTable) (page : Page) : Task → Option Page
  | .insert tuple _ true => heap.place? page tuple
  | .delete slot true => heap.remove? page slot
  | _ => none

/-- Whether a call gives up the lock of a page that has no room for its tuple. -/
def Task.givesBack : Task → Bool
  | .insert _ heldBefore _ => !heldBefore
  | _ => false

namespace Pool

/-- The page that a call is handed in its turn, if it is granted its lock. -/
def handed? (p : Pool) (c : Call) : Option Page :=
  match p.locks.acquire c.request with
  | (.granted, locks) => (({ p with locks } : Pool).obtain c.request c.task.source).1.toOption
  | _ => none

/-- A call has been granted its lock and handed the page, and has made its change to it: it is about
to install this page in this pool. -/
def Installs (p : Pool) (c : Call) (k : Pool) (edited : Page) : Prop :=
  ∃ locks page heap, p.locks.acquire c.request = (.granted, locks) ∧
    ({ p with locks } : Pool).obtain c.request c.task.source = (.ok page, k) ∧
    k.catalog.table c.request.page.table = .ok heap ∧ c.task.edited? heap page = some edited

/-- What a call goes on to once its lock is granted: it ends without a change, it is a scan that
needs its next page, it installs the one page that it has changed, or it is a search that goes on
past a full page. A changer of single bytes installs pages of its own. -/
inductive Resumes (p : Pool) (c : Call) : Progress × Pool → Prop where
  | stops {found k result} : p.obtain c.request c.task.source = (found, k) →
      result ≠ .ok .done → Resumes p c (.ended result, k)
  | scans {found k q rest sofar} : p.obtain c.request c.task.source = (found, k) →
      Resumes p c (.needs ⟨⟨c.request.tid, q, .shared⟩, .scan rest sofar⟩, k)
  | installs {page k heap edited o} : p.obtain c.request c.task.source = (.ok page, k) →
      k.catalog.table c.request.page.table = .ok heap → c.task.edited? heap page = some edited →
      o = k.deliver c.request.tid true [edited] → Resumes p c o
  | seeks {page k k' tuple heldBefore install n o} :
      p.obtain c.request c.task.source = (.ok page, k) → c.task = .insert tuple heldBefore install →
      k' = (if heldBefore then k else k.releaseLock c.request.tid c.request.page) →
      o = k'.seekRoom c.request.tid c.request.page.table n tuple install → Resumes p c o
  | edits {page k source edited writes pages o} :
      p.obtain c.request c.task.source = (.ok page, k) → c.task = .edit source edited writes →
      o.2 = (k.installAll c.request.tid pages).2 → Resumes p c o

variable {p : Pool} {c : Call} {t : TransactionId}

/-- An edit of single bytes installs its copies at the end, and nothing before. -/
theorem editNext_eq (p : Pool) (t : TransactionId) (table : TableId) (source : PageSource)
    (edited : List Page) (writes : List ByteWrite) :
    ∃ pages, (p.editNext t table source edited writes).2 = (p.installAll t pages).2 := by
  induction writes generalizing edited with
  | nil => exact ⟨edited, rfl⟩
  | cons w writes ih =>
    unfold editNext
    simp only
    split
    · split
      · exact ⟨[], rfl⟩
      · exact ih _
    · exact ⟨[], rfl⟩

theorem resumes (p : Pool) (c : Call) : Resumes p c (p.resume c) := by
  obtain ⟨r, task⟩ := c
  rcases hr : p.obtain r task.source with ⟨found, k⟩
  simp only [resume, hr]
  cases found with
  | error e => exact .stops hr nofun
  | ok page =>
    simp only
    cases hheap : k.catalog.table r.page.table with
    | error e => exact .stops hr nofun
    | ok heap =>
      simp only
      cases task with
      | fetch => exact .stops hr nofun
      | insert tuple heldBefore install =>
        cases hplace : heap.place? page tuple with
        | none =>
          simp only [continueOn, hplace]
          exact .seeks hr rfl rfl rfl
        | some edited =>
          simp only [continueOn, hplace]
          cases install with
          | true => exact .installs hr hheap hplace rfl
          | false => exact .stops hr nofun
      | delete slot install =>
        cases hremove : heap.remove? page slot with
        | none =>
          simp only [continueOn, hremove]
          exact .stops hr nofun
        | some edited =>
          simp only [continueOn, hremove]
          cases install with
          | true => exact .installs hr hheap hremove rfl
          | false => exact .stops hr nofun
      | scan rest found =>
        cases rest with
        | nil => exact .stops hr nofun
        | cons q rest => exact .scans hr
      | edit source edited writes =>
        obtain ⟨pages, hpages⟩ := editNext_eq k r.tid r.page.table source (edited ++ [page]) writes
        exact .edits hr rfl hpages

/-- One lock request of a call: without the lock it waits or ends, with it the call goes on. -/
theorem runCall_one_cases (p : Pool) (c : Call) :
    (∃ locks, (p.locks.acquire c.request).2 = locks ∧
      (p.runCall 1 c = (.blocked c, { p with locks }) ∨
        ∃ e, p.runCall 1 c = (.ended (.error e), { p with locks }))) ∨
    ∃ locks, p.locks.acquire c.request = (.granted, locks) ∧
      ((∃ r p', ({ p with locks } : Pool).resume c = (.ended r, p') ∧
          p.runCall 1 c = (.ended r, p')) ∨
        ∃ c' p', ({ p with locks } : Pool).resume c = (.needs c', p') ∧
          p.runCall 1 c = (.blocked c', p')) := by
  rcases ha : p.locks.acquire c.request with ⟨attempt, locks⟩
  cases attempt with
  | waits => exact .inl ⟨locks, rfl, .inl (by simp only [runCall, ha])⟩
  | deadlock =>
    exact .inl ⟨locks, rfl,
      .inr ⟨.transactionAborted c.request.tid, by simp only [runCall, ha]⟩⟩
  | granted =>
    refine .inr ⟨locks, rfl, ?_⟩
    rcases hr : ({ p with locks } : Pool).resume c with ⟨progress, p'⟩
    cases progress with
    | ended r => exact .inl ⟨r, p', rfl, by simp only [runCall, ha, hr]⟩
    | needs c' => exact .inr ⟨c', p', rfl, by simp only [runCall, ha, hr]⟩

/-- What a new request of a call relies on: whoever changes a page asks for it exclusively and
installs it, and a search knows whether it held the page before. -/
def Knows (p : Pool) (c : Call) : Prop :=
  match c.task with
  | .insert _ heldBefore install =>
    c.request.mode = .exclusive ∧ install = true ∧
      heldBefore = p.locks.holds c.request.tid c.request.page
  | .delete _ install => c.request.mode = .exclusive ∧ install = true
  | .edit _ _ _ => False
  | _ => True

/-- A lock that is to be given up was not held before. -/
theorem Knows.not_held (hc : p.Knows c) (hgive : c.task.givesBack = true) :
    p.locks.holds c.request.tid c.request.page = false := by
  obtain ⟨r, task⟩ := c
  cases task with
  | insert tuple heldBefore install =>
    obtain ⟨-, -, hheld⟩ := hc
    rw [← hheld]
    simpa [Task.givesBack] using hgive
  | _ => contradiction

/-- A search changes the store at most, and ends or asks for a page. -/
theorem seekRoom_cases (p : Pool) (t : TransactionId) (table : TableId) (n : UInt32)
    (tuple : Bytes) (install : Bool) :
    ∃ catalog, (∃ e, p.seekRoom t table n tuple install = (.failed e, { p with catalog })) ∨
      ∃ c, p.seekRoom t table n tuple install = (.needs c, { p with catalog }) ∧
        c.request.tid = t ∧ (install = true → p.Knows c) := by
  unfold seekRoom
  cases p.catalog.table table with
  | error e => exact ⟨p.catalog, .inl ⟨e, rfl⟩⟩
  | ok heap =>
    simp only
    rcases p.catalog.pageOrGrow heap n with ⟨found, catalog⟩
    cases found with
    | error e => exact ⟨catalog, .inl ⟨e, rfl⟩⟩
    | ok n => exact ⟨catalog, .inr ⟨_, rfl, rfl, fun hinstall => ⟨rfl, hinstall, rfl⟩⟩⟩

/-- Once it has obtained its page, a call changes locks and store at most, or it installs pages. -/
theorem pool_resume (p : Pool) (c : Call) :
    ∃ found k, p.obtain c.request c.task.source = (found, k) ∧
      ((∃ locks catalog, (p.resume c).2 = { k with locks, catalog }) ∨
        ∃ pages, (p.resume c).2 = (k.installAll c.request.tid pages).2) := by
  generalize ho : p.resume c = o
  have hcases := resumes p c
  rw [ho] at hcases
  cases hcases with
  | @stops found k _ hobtain _ => exact ⟨found, k, hobtain, .inl ⟨k.locks, k.catalog, rfl⟩⟩
  | @scans found k _ _ _ hobtain => exact ⟨found, k, hobtain, .inl ⟨k.locks, k.catalog, rfl⟩⟩
  | @installs _ k _ edited _ hobtain _ _ hdelivers =>
    exact ⟨_, k, hobtain, .inr ⟨[edited], congrArg Prod.snd hdelivers⟩⟩
  | @seeks _ k k' tuple heldBefore install n _ hobtain _ hk hseeks =>
    have hgiven : k' = { k with locks := k'.locks } := by
      rw [hk]
      cases heldBefore <;> rfl
    refine ⟨_, k, hobtain, .inl ?_⟩
    obtain ⟨catalog, ⟨e, hs⟩ | ⟨c', hs, -⟩⟩ :=
      seekRoom_cases k' c.request.tid c.request.page.table n tuple install
    · exact ⟨k'.locks, catalog, by rw [hseeks, hs, hgiven]⟩
    · exact ⟨k'.locks, catalog, by rw [hseeks, hs, hgiven]⟩
  | @edits _ k _ _ _ pages _ hobtain _ hpages => exact ⟨_, k, hobtain, .inr ⟨pages, hpages⟩⟩

/-- Who changes single tuples has done so by installing a page. -/
theorem installs_of_done {p' : Pool} (hedit : ∀ source edited writes, c.task ≠ .edit source edited writes)
    (hrun : p.runCall 1 c = (.ended (.ok .done), p')) : ∃ k edited, p.Installs c k edited := by
  rcases runCall_one_cases p c with
    ⟨locks, -, h | ⟨e, h⟩⟩ | ⟨locks, ha, ⟨r, k, hresume, h⟩ | ⟨c', k, -, h⟩⟩
  · cases hrun.symm.trans h
  · cases hrun.symm.trans h
  · obtain ⟨rfl, rfl⟩ : r = .ok .done ∧ k = p' := by
      cases hrun.symm.trans h
      exact ⟨rfl, rfl⟩
    have hcases := resumes { p with locks } c
    rw [hresume] at hcases
    cases hcases with
    | stops _ hne => exact absurd rfl hne
    | @installs page k heap edited _ hobtain hheap he =>
      exact ⟨k, edited, locks, page, heap, ha, hobtain, hheap, he⟩
    | @seeks page k k' tuple heldBefore install n _ _ _ _ hseeks =>
      have hfound := seekRoom_cases k' c.request.tid c.request.page.table n tuple install
      rw [← hseeks] at hfound
      obtain ⟨catalog, ⟨e, he⟩ | ⟨c', he, -⟩⟩ := hfound
      · cases (Prod.mk.inj he).1
      · cases (Prod.mk.inj he).1
    | edits _ htask => exact absurd htask (hedit _ _ _)
  · cases hrun.symm.trans h

/-- A fetch that succeeds answers with what it is handed, and keeps the lock. -/
theorem fetch_eq_ok {r : LockRequest} {page : Page} {p' : Pool}
    (hrun : p.runCall 1 ⟨r, .fetch⟩ = (.ended (.ok (.page page)), p')) :
    p.handed? ⟨r, .fetch⟩ = some page ∧ p.locks.acquire r = (.granted, p'.locks) := by
  unfold handed?
  simp only [runCall] at hrun
  rcases ha : p.locks.acquire r with ⟨attempt, locks⟩
  cases attempt with
  | waits => simp [ha] at hrun
  | deadlock => simp [ha] at hrun
  | granted =>
    rcases ho : ({ p with locks } : Pool).read r.tid r.page with ⟨found, k⟩
    obtain ⟨hlocks, -, -⟩ := read_frame ho
    have hobtain : ({ p with locks } : Pool).obtain r Task.fetch.source = (found, k) := ho
    simp only [ha, resume, hobtain] at hrun ⊢
    cases found with
    | error e => cases (Prod.mk.inj hrun).1
    | ok stored =>
      simp only at hrun
      cases hheap : k.catalog.table r.page.table with
      | error e =>
        rw [hheap] at hrun
        cases (Prod.mk.inj hrun).1
      | ok heap =>
        rw [hheap] at hrun
        cases hrun
        exact ⟨rfl, by rw [hlocks]⟩

/-- A call as it starts changes the store at most. -/
theorem start_cases (p : Pool) (c : Command) :
    ∃ catalog, (∃ result, c.start p = (.ended result, { p with catalog })) ∨
      ∃ call, c.start p = (.needs call, { p with catalog }) ∧ call.request.tid = c.tid ∧
        p.Knows call := by
  cases c with
  | fetch t page access => exact ⟨p.catalog, .inr ⟨_, rfl, rfl, trivial⟩⟩
  | insert t table tuple =>
    simp only [Command.start, startInsert]
    cases p.catalog.table table with
    | error e => exact ⟨p.catalog, .inl ⟨_, rfl⟩⟩
    | ok heap =>
      simp only
      split
      · obtain ⟨catalog, ⟨e, hs⟩ | ⟨c, hs, ht, hk⟩⟩ := seekRoom_cases p t table 0 tuple true
        · exact ⟨catalog, .inl ⟨_, hs⟩⟩
        · exact ⟨catalog, .inr ⟨c, hs, ht, hk rfl⟩⟩
      · exact ⟨p.catalog, .inl ⟨_, rfl⟩⟩
  | delete t record? =>
    simp only [Command.start, startDelete]
    cases record? with
    | none => exact ⟨p.catalog, .inl ⟨_, rfl⟩⟩
    | some record =>
      simp only [startDeleteFrom]
      cases p.catalog.table record.page.table with
      | error e => exact ⟨p.catalog, .inl ⟨_, rfl⟩⟩
      | ok heap =>
        simp only
        split
        · exact ⟨p.catalog, .inr ⟨_, rfl, rfl, rfl, rfl⟩⟩
        · exact ⟨p.catalog, .inl ⟨_, rfl⟩⟩
  | scan t table =>
    simp only [Command.start, startScan]
    cases p.catalog.table table with
    | error e => exact ⟨p.catalog, .inl ⟨_, rfl⟩⟩
    | ok heap =>
      simp only
      cases heap.pageIds with
      | nil => exact ⟨p.catalog, .inl ⟨_, rfl⟩⟩
      | cons q rest => exact ⟨p.catalog, .inr ⟨_, rfl, rfl, trivial⟩⟩

/-! What a turn leaves of the locks of its own transaction. -/

theorem obtain_frame {found : Except Error Page} {k : Pool} {r : LockRequest} {source : PageSource}
    (h : p.obtain r source = (found, k)) :
    k.locks = p.locks ∧ k.catalog = p.catalog ∧ k.unsynced = p.unsynced := by
  cases source with
  | cache => exact read_frame h
  | store =>
    obtain rfl : p = k := (Prod.mk.inj h).2
    exact ⟨rfl, rfl, rfl⟩

theorem installAll_frame (p : Pool) (t : TransactionId) (pages : List Page) :
    (p.installAll t pages).2.locks = p.locks ∧ (p.installAll t pages).2.catalog = p.catalog := by
  induction pages generalizing p with
  | nil => exact ⟨rfl, rfl⟩
  | cons page pages ih =>
    unfold installAll
    cases hi : p.install t page with
    | error e => exact ⟨rfl, rfl⟩
    | ok k =>
      obtain ⟨hlocks, hcatalog⟩ := ih k
      have hinstalled : k.locks = p.locks ∧ k.catalog = p.catalog := by
        unfold install makeRoomFor at hi
        split at hi
        · split at hi
          · obtain rfl := Except.ok.inj hi
            exact ⟨rfl, rfl⟩
          · cases hmade : p.makeRoom with
            | error e => simp [hmade, Except.map] at hi
            | ok made =>
              rw [hmade] at hi
              obtain rfl := Except.ok.inj hi
              rcases makeRoom_eq_ok hmade with rfl | he
              · exact ⟨rfl, rfl⟩
              · obtain ⟨victim, -, rfl⟩ := evict_eq_ok he
                exact ⟨rfl, rfl⟩
        · contradiction
      exact ⟨hlocks.trans hinstalled.1, hcatalog.trans hinstalled.2⟩

/-- A call that goes on gives back the lock of a full page at most. -/
theorem locks_resume (p : Pool) (c : Call) :
    (p.resume c).2.locks = p.locks ∨ c.task.givesBack = true ∧
      (p.resume c).2.locks = p.locks.release c.request.tid c.request.page := by
  generalize ho : p.resume c = o
  have hcases := resumes p c
  rw [ho] at hcases
  cases hcases with
  | stops hobtain _ => exact .inl (obtain_frame hobtain).1
  | scans hobtain => exact .inl (obtain_frame hobtain).1
  | @installs page k heap edited _ hobtain _ _ hdelivers =>
    have hlocks : (k.deliver c.request.tid true [edited]).2.locks = k.locks :=
      (installAll_frame k c.request.tid [edited]).1
    rw [hdelivers, hlocks]
    exact .inl (obtain_frame hobtain).1
  | @seeks page k k' tuple heldBefore install n _ hobtain htask hk hseeks =>
    have hsought : o.2.locks = k'.locks := by
      obtain ⟨catalog, ⟨e, hs⟩ | ⟨c', hs, -⟩⟩ :=
        seekRoom_cases k' c.request.tid c.request.page.table n tuple install
      · rw [hseeks, hs]
      · rw [hseeks, hs]
    rw [hsought, hk, htask, ← (obtain_frame hobtain).1]
    cases heldBefore with
    | true => exact .inl rfl
    | false => exact .inr ⟨rfl, rfl⟩
  | @edits page k source edited writes pages _ hobtain _ hpages =>
    rw [hpages, (installAll_frame k c.request.tid pages).1]
    exact .inl (obtain_frame hobtain).1

theorem holds_resume {q : PageId} (hq : p.locks.holds t q = true)
    (hkeep : c.task.givesBack = true → q ≠ c.request.page) :
    (p.resume c).2.locks.holds t q = true := by
  rcases locks_resume p c with hlocks | ⟨hgive, hlocks⟩
  · rwa [hlocks]
  · rw [hlocks]
    exact LockTable.holds_release hq (hkeep hgive)

/-- In its turn a call gives up no lock but that of a full page. -/
theorem holds_runCall {q : PageId} (hq : p.locks.holds t q = true)
    (hkeep : c.task.givesBack = true → q ≠ c.request.page) :
    (p.runCall 1 c).2.locks.holds t q = true := by
  have hlocked : (p.locks.acquire c.request).2.holds t q = true := LockTable.holds_acquire hq
  rcases runCall_one_cases p c with
    ⟨locks, rfl, hrun | ⟨e, hrun⟩⟩ | ⟨locks, ha, ⟨r, p', hresume, hrun⟩ | ⟨c', p', hresume, hrun⟩⟩
  · rwa [hrun]
  · rwa [hrun]
  all_goals
    rw [ha] at hlocked
    have hresumed := holds_resume (p := { p with locks }) hlocked hkeep
    rw [hresume] at hresumed
    rwa [hrun]

end Pool

end PagePool
