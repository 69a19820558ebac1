import PagePool.Proofs.Pool.Backing

namespace PagePool

/-- The table that a call may add pages to. -/
def Call.grows (c : Call) : Option TableId :=
  match c.task with
  | .insert _ _ _ => some c.request.page.table
  | _ => none

def Command.grows : Command → Option TableId
  | .insert _ table _ => some table
  | _ => none

namespace Pool

/-- What a call does once its lock is granted: it leaves the contents as they are, or it installs the
one page that it has changed, and is done. -/
inductive Acts (p : Pool) (c : Call) : Progress × Pool → Prop where
  | leaves {o} : SameContents c.grows p o.2 → o.2.Backed → o.1 ≠ .ended (.ok .done) → Acts p c o
  | installs {k page heap edited o} : SameContents none p k → k.Backed →
      k.pages.get? c.request.page = some page → k.catalog.table c.request.page.table = .ok heap →
      c.task.edited? heap page = some edited →
      o = (.ended (.ok .done), k.addDirty c.request.tid edited) → Acts p c o

variable {p p' k : Pool} {c : Call} {t : TransactionId} {page edited : Page} {heap : HeapTable}

/-- A page that is cached already is installed, or its installer has no right to. -/
theorem installAll_cached (hq : p.isCached edited.id = true) (t : TransactionId) :
    p.installAll t [edited] = (.ok (), p.addDirty t edited) ∨
      p.installAll t [edited] = (.error .misuse, p) := by
  by_cases hw : p.locks.isWriter t edited.id = true
  · have hroom : p.makeRoomFor edited.id = .ok p := if_pos hq
    refine .inl ?_
    simp only [installAll, install, hw, hroom, if_true]
    rfl
  · refine .inr ?_
    simp only [installAll, install, hw]
    rfl

/-- An edit changes bytes of the page it is made from, and nothing else. -/
theorem edited_frame {task : Task} (he : task.edited? heap page = some edited) :
    task.source = .cache ∧ edited.id = page.id ∧ edited.before = page.before := by
  cases task with
  | insert tuple heldBefore install =>
    cases install with
    | true =>
      obtain ⟨data, rfl, -⟩ := HeapTable.place?_eq_some he
      exact ⟨rfl, rfl, rfl⟩
    | false => contradiction
  | delete slot install =>
    cases install with
    | true =>
      obtain ⟨data, rfl, -⟩ := HeapTable.remove?_eq_some he
      exact ⟨rfl, rfl, rfl⟩
    | false => contradiction
  | _ => contradiction

/-- A call that fits is no edit of single bytes, and takes its page from the cache. -/
theorem source_of_fits {layout? : TableId → Option Layout} (hc : c.Fits layout?) :
    c.task.source = .cache := by
  obtain ⟨r, task⟩ := c
  cases task with
  | edit source edited writes => exact hc.elim
  | _ => rfl

theorem acts_resume (h : p.Backed) (hc : c.Fits p.catalog.layout?) : Acts p c (p.resume c) := by
  have hintact : (p.resume c).2.Intact := (StepsSilently.resume h.intact hc).1.intact
  have hcases := resumes p c
  generalize p.resume c = o at hcases hintact ⊢
  have hobtained {found : Except Error Page} {k : Pool}
      (ho : p.obtain c.request c.task.source = (found, k)) :
      p.read c.request.tid c.request.page = (found, k) ∧ k.Backed ∧ SameContents none p k := by
    rw [source_of_fits hc] at ho
    have hread : p.read c.request.tid c.request.page = (found, k) := ho
    have hbacked := h.read c.request.tid c.request.page
    have hsame := SameContents.read h c.request.tid c.request.page
    rw [hread] at hbacked hsame
    exact ⟨hread, hbacked, hsame⟩
  cases hcases with
  | stops ho hne =>
    obtain ⟨-, hbacked, hsame⟩ := hobtained ho
    exact .leaves hsame.mono hbacked fun he => hne (Progress.ended.inj he)
  | scans ho =>
    obtain ⟨-, hbacked, hsame⟩ := hobtained ho
    exact .leaves hsame.mono hbacked fun he => by cases he
  | @installs page k heap edited _ ho hheap he hdelivers =>
    obtain ⟨hread, hbacked, hsame⟩ := hobtained ho
    obtain ⟨hq, -⟩ := read_eq_ok hread
    have hid : edited.id = c.request.page :=
      (edited_frame he).2.1.trans (hbacked.intact.resident.id_eq hq)
    have hcached : k.isCached edited.id = true := by
      rw [hid]
      exact isCached_iff.2 ⟨page, hq⟩
    rcases installAll_cached hcached c.request.tid with hi | hi
    · refine .installs hsame hbacked hq hheap he (hdelivers.trans ?_)
      simp only [deliver, hi, if_true]
      rfl
    · have ho : o = (.ended (.error .misuse), k) := by
        refine hdelivers.trans ?_
        simp only [deliver, hi, if_true]
        rfl
      subst ho
      exact .leaves hsame.mono hbacked fun he => by cases he
  | @seeks page k k' tuple heldBefore install n _ ho htask hk hseeks =>
    obtain ⟨-, hbacked, hsame⟩ := hobtained ho
    have hgiven : k'.Backed ∧ SameContents none p k' := by
      rw [hk]
      cases heldBefore with
      | true => exact ⟨hbacked, hsame⟩
      | false => exact ⟨hbacked.locks _, hsame.trans (.of_cache rfl rfl rfl)⟩
    have hgrows : c.grows = some c.request.page.table := by rw [Call.grows, htask]
    have hsought := SameContents.seekRoom hgiven.1 c.request.tid c.request.page.table n tuple install
    have hfound := seekRoom_cases k' c.request.tid c.request.page.table n tuple install
    rw [← hseeks] at hsought hfound
    have hleaves : SameContents c.grows p o.2 := hgrows ▸ hgiven.2.mono.trans hsought
    obtain ⟨catalog, ⟨e, rfl⟩ | ⟨c', rfl, -⟩⟩ := hfound
    all_goals
      have hbacked' := hgiven.1.of_cache hintact id id hsought.stored_of_some
      exact .leaves hleaves hbacked' fun he => by cases he
  | edits _ htask _ =>
    rw [Call.Fits, htask] at hc
    exact hc.elim

/-- The next lock of a call is for the same table, or for a page that there is. -/
theorem grows_next {c' : Call} (hc : c.Fits p.catalog.layout?)
    (hnext : (p.resume c).1 = .needs c') : c'.grows = c.grows ∨ c'.grows = none := by
  have hcases := resumes p c
  generalize p.resume c = o at hcases hnext
  cases hcases with
  | stops _ _ => cases hnext
  | scans _ =>
    obtain rfl := Progress.needs.inj hnext
    exact .inr rfl
  | @installs page k heap edited _ _ _ _ hdelivers =>
    rw [hdelivers] at hnext
    simp only [deliver, if_true] at hnext
    cases hnext
  | @seeks page k k' tuple heldBefore install n _ _ htask _ hseeks =>
    rw [hseeks] at hnext
    unfold seekRoom at hnext
    split at hnext
    · cases hnext
    · split at hnext
      · cases hnext
      · obtain rfl := Progress.needs.inj hnext
        exact .inl (by simp only [Call.grows, htask])
  | edits _ htask _ =>
    rw [Call.Fits, htask] at hc
    exact hc.elim

/-- A call changes no contents unless it is done, however many locks it gets. -/
theorem contents_runCall (h : p.Backed) (hc : c.Fits p.catalog.layout?) (n : Nat)
    (hne : (p.runCall n c).1 ≠ .ended (.ok .done)) : SameContents c.grows p (p.runCall n c).2 := by
  -- one lock request after another: a turn that does not end in success leaves the contents
  induction n generalizing p c with
  | zero => exact .refl p
  | succ n ih =>
    rcases ha : p.locks.acquire c.request with ⟨attempt, locks⟩
    have hlocked : SameContents none p { p with locks } := .of_cache rfl rfl rfl
    cases attempt with
    | waits =>
      simp only [runCall, ha]
      exact hlocked.mono
    | deadlock =>
      simp only [runCall, ha]
      exact hlocked.mono
    | granted =>
      have hfits := (StepsSilently.resume (h.locks locks).intact (c := c) hc).2
      have hsilent := (StepsSilently.resume (h.locks locks).intact (c := c) hc).1
      have hacts := acts_resume (h.locks locks) (c := c) hc
      have hgrows : ∀ c', (({ p with locks } : Pool).resume c).1 = .needs c' →
          c'.grows = c.grows ∨ c'.grows = none := fun _ => grows_next hc
      simp only [runCall, ha] at hne ⊢
      rcases hresume : ({ p with locks } : Pool).resume c with ⟨progress, p'⟩
      rw [hresume] at hacts hfits hsilent hgrows hne
      cases hacts with
      | leaves hsame hbacked hundone =>
        cases progress with
        | ended result => exact hlocked.mono.trans hsame
        | needs c' =>
          have hnext := ih hbacked (hsilent.layout_eq ▸ hfits c' rfl) hne
          refine (hlocked.mono.trans hsame).trans ?_
          -- the table that may grow is the same one all along
          rcases hgrows c' rfl with hgrown | hnone
          · rwa [← hgrown]
          · rw [hnone] at hnext
            exact hnext.mono
      | installs _ _ _ _ _ ho =>
        obtain ⟨rfl, -⟩ := Prod.mk.inj ho
        exact absurd rfl hne

theorem Backed.turn (h : p.Backed) (hc : c.Fits p.catalog.layout?) : (p.runCall 1 c).2.Backed := by
  have hintact := (silent_turn h.intact hc).1.intact
  rcases runCall_one_cases p c with
    ⟨locks, -, hrun | ⟨e, hrun⟩⟩ | ⟨locks, -, ⟨r, p', hresume, hrun⟩ | ⟨c', p', hresume, hrun⟩⟩
  · rw [hrun]
    exact h.locks locks
  · rw [hrun]
    exact h.locks locks
  all_goals
    have hacts := acts_resume (h.locks locks) (c := c) hc
    rw [hresume] at hacts
    rw [hrun] at hintact ⊢
    cases hacts with
    | leaves _ hbacked _ => exact hbacked
    | @installs k page heap edited _ _ hbacked hq _ he ho =>
      obtain ⟨-, rfl⟩ := Prod.mk.inj ho
      obtain ⟨-, hid, hbefore⟩ := edited_frame he
      refine hbacked.addDirty hintact ?_ hbefore
      rw [hid, hbacked.intact.resident.id_eq hq]
      exact hq

/-- A call changes no contents as it starts. -/
theorem contents_start (h : p.Backed) (c : Command) : SameContents c.grows p (c.start p).2 := by
  cases c with
  | fetch t page access => exact .refl p
  | insert t table tuple =>
    simp only [Command.start, startInsert]
    split
    · exact .refl p
    · split
      · exact .seekRoom h t table 0 tuple true
      · exact .refl p
  | delete t record? =>
    simp only [Command.start, startDelete]
    split
    · exact .refl p
    · unfold startDeleteFrom
      split
      · exact .refl p
      · simp only
        split <;> exact .refl p
  | scan t table =>
    simp only [Command.start, startScan]
    split
    · exact .refl p
    · unfold scanNext
      split <;> exact .refl p

end Pool

namespace World

variable {w start : World} {rule : World → Action → Prop}

theorem backed_perform (hw : w.Sturdy) (h : w.pool.Backed) (a : Action) :
    (w.perform a).pool.Backed := by
  have hsturdy := hw.perform a
  cases a with
  | begin => exact h.congr hsturdy.pool rfl rfl rfl
  | call step c =>
    have hpool := Pool.contents_start h c
    have hintact : (w.issue step c).2.pool.Intact := hsturdy.pool
    simp only [perform]
    rw [pool_issue] at hintact ⊢
    obtain ⟨catalog, ⟨result, hs⟩ | ⟨call, hs, -⟩⟩ := Pool.start_cases w.pool c
    · rw [hs] at hpool hintact ⊢
      exact h.of_cache hintact id id hpool.stored_of_some
    · rw [hs] at hpool hintact ⊢
      exact h.of_cache hintact id id hpool.stored_of_some
  | turn i =>
    simp only [perform]
    cases hi : w.session.pending[i]? with
    | none => rwa [turn_of_absent hi]
    | some call =>
      rw [pool_turn hi]
      exact h.turn (hw.calls call (List.mem_of_getElem? hi))
  | complete t commit => exact h.complete t commit
  | flush q => exact h.flush q
  | flushAll => exact h.flushEach _
  | flushOf t => exact h.flushEach _
  | discard q => exact h.discard q
  | releaseLock t q => exact h.locks _
  | failStore table faults =>
    have hpool : (w.perform (.failStore table faults)).pool.Intact := hsturdy.pool
    simp only [perform] at hpool ⊢
    cases hf : w.pool.catalog.setFaults table faults with
    | error e => exact h
    | ok catalog =>
      rw [hf] at hpool
      refine h.of_cache hpool id id fun {q d} hd => ?_
      exact (Catalog.stored?_setFaults hf q).trans hd
  | failLog refuses forceFails => exact h.congr hsturdy.pool rfl rfl rfl

/-- Cached pages are backed whatever callers do. -/
theorem Reaches.backed (hr : Reaches rule start w) (hstart : start.Sturdy)
    (h : start.pool.Backed) : w.pool.Backed := by
  induction hr with
  | refl => exact h
  | step hr _ ih => exact backed_perform (hr.sturdy hstart) ih _

/-- A call that fails has changed no contents, neither as it started nor in any of its passes, whoever has
come in between: what any read hands out stays, with its owner and its committed bytes, and so do the
store, the log and the changed pages of every transaction. The table of an insert may have got zero
pages. -/
theorem failed_call_changes_nothing {p : Pool} {capacity : Nat} {catalog : Catalog}
    {journal : Journal} (hs : catalog.Sound) (hp : Pool.make capacity catalog journal = .ok p)
    (hr : Reaches rule (ofPool p) w) :
    (∀ t q page, (w.pool.read t q).1 = .ok page → w.pool.visible? q = some page) ∧
      (∀ step c, (∀ answer, (w.issue step c).1 ≠ some (.ok answer)) →
        Pool.SameContents c.grows w.pool (w.issue step c).2.pool) ∧
      ∀ call ∈ w.session.pending, ∀ n,
        (∀ answer, (w.pool.runCall n call.call).1 ≠ .ended (.ok answer)) →
        Pool.SameContents call.call.grows w.pool (w.pool.runCall n call.call).2 := by
  have hsturdy := sturdy_ofPool hs hp
  have hbacked := hr.backed hsturdy (Pool.backed_make hs hp)
  refine ⟨fun t q page hread => ?_, fun step c _ => ?_, fun call hcall n hfail => ?_⟩
  · rcases hpool : w.pool.read t q with ⟨found, k⟩
    rw [hpool] at hread
    obtain rfl : found = .ok page := hread
    exact Pool.SameContents.visible?_of_read hbacked hpool
  · rw [pool_issue]
    exact Pool.contents_start hbacked c
  · exact Pool.contents_runCall hbacked ((hr.sturdy hsturdy).calls call hcall) n (hfail .done)

/-- Transaction 1 has filled the only page of its table, and is to insert once more. -/
def secondInsert : World :=
  (ofPool onePage).performAll [.call 0 (.insert ⟨1⟩ ⟨1⟩ [7]), .turn 0, .call 1 (.insert ⟨1⟩ ⟨1⟩ [8])]

/-- Its search has come to the page that it holds already. -/
def secondSearch : Call := ⟨⟨⟨1⟩, ⟨⟨1⟩, 0⟩, .exclusive⟩, .insert [8] true true⟩

/-- The insert adds a page to the table, finds no place for it in the cache and fails. -/
theorem second_insert_fails :
    (secondInsert.pool.runCall 2 secondSearch).1 = .ended (.error (.storageExhausted 1)) ∧
      Pool.SameContents (some ⟨1⟩) secondInsert.pool (secondInsert.pool.runCall 2 secondSearch).2 := by
  have hreaches : Reaches (fun _ _ => True) (ofPool onePage) secondInsert :=
    Reaches.refl.performAll ⟨trivial, trivial, trivial, trivial⟩
  have hwaits : ⟨1, secondSearch⟩ ∈ secondInsert.session.pending := List.mem_singleton_self _
  have hrun : (secondInsert.pool.runCall 2 secondSearch).1 =
      .ended (.error (.storageExhausted 1)) := rfl
  obtain ⟨-, -, hpasses⟩ :=
    failed_call_changes_nothing Catalog.sound_oneSlot make_onePage hreaches
  refine ⟨hrun, hpasses _ hwaits 2 fun answer => ?_⟩
  rw [hrun]
  nofun

end World

end PagePool
