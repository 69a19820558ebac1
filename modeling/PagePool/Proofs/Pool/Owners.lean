import PagePool.Proofs.Pool.Durability
import PagePool.Proofs.Pool.Eviction
import PagePool.Proofs.Pool.Locking

namespace PagePool

namespace Pool

/-- A cached page that the transaction has changed. -/
def HasChanged (p : Pool) (t : TransactionId) (q : PageId) : Prop :=
  ∃ page, p.pages.get? q = some page ∧ page.dirtiedBy = some t

/-- Who has changed a page is active and holds its exclusive lock. -/
structure Owned (p : Pool) : Prop where
  locks : p.locks.Valid
  owner : ∀ {t q}, p.HasChanged t q → p.locks.isWriter t q = true ∧ p.isActive t = true

/-- What a call of one transaction may do: pages stay with their owners, and nobody else has
changed any that he had not. -/
structure Works (t : TransactionId) (p p' : Pool) : Prop where
  owned : p'.Owned
  changed : ∀ {u q}, u ≠ t → p'.HasChanged u q → p.HasChanged u q

/-- What a waiting call can rely on: a change is made under an exclusive lock, and a search gives
up no lock on a page that its transaction has changed. -/
def Careful (p : Pool) (c : Call) : Prop :=
  match c.task with
  | .insert _ heldBefore install =>
    c.request.mode = .exclusive ∧ install = true ∧
      (heldBefore = false → ¬ p.HasChanged c.request.tid c.request.page)
  | .delete _ install => c.request.mode = .exclusive ∧ install = true
  | .edit _ _ _ => False
  | _ => True

/-- A page is locked for its transaction to install it, and finds its place if it is still cached; else
it may only fail because the cache is full of pages that must stay. -/
structure Installable (p : Pool) (t : TransactionId) (page : Page) : Prop where
  locked : p.locks.modeOf t page.id = some .exclusive
  installs : p.isCached page.id = true → p.install t page = .ok (p.addDirty t page)
  fails : ∀ {e}, p.install t page = .error e → e = .storageExhausted p.capacity ∧
    p.pages.size = p.capacity ∧ ∀ q, p.isCached q = true → p.Pinned q

variable {p p' p'' k : Pool} {t u : TransactionId} {q : PageId} {page edited : Page} {c : Call}

theorem hasChanged_congr (h : p'.pages = p.pages) : p'.HasChanged t q ↔ p.HasChanged t q := by
  rw [HasChanged, h]
  rfl

theorem Rereads.hasChanged (h : Rereads p p') (hc : p'.HasChanged t q) : p.HasChanged t q := by
  obtain ⟨page, hq, ht⟩ := hc
  exact ⟨page, h.changed_stays hq (by rw [ht]; nofun), ht⟩

theorem owned_make {capacity : Nat} {catalog : Catalog} {journal : Journal}
    (h : make capacity catalog journal = .ok p) : p.Owned := by
  obtain ⟨-, rfl⟩ := make_eq_ok h
  refine ⟨LockTable.valid_empty, ?_⟩
  rintro t q ⟨page, hq, -⟩
  contradiction

namespace Owned

/-- Changed pages may go, locks on the others may too. -/
theorem of_fewer (h : p.Owned) (hvalid : p'.locks.Valid)
    (hchanged : ∀ {u q}, p'.HasChanged u q → p.HasChanged u q)
    (hwriter : ∀ {u q}, p'.HasChanged u q → p.locks.isWriter u q = true →
      p'.locks.isWriter u q = true)
    (hactive : ∀ {u q}, p'.HasChanged u q → p.isActive u = true → p'.isActive u = true) :
    p'.Owned := by
  refine ⟨hvalid, fun hc => ?_⟩
  obtain ⟨hw, ht⟩ := h.owner (hchanged hc)
  exact ⟨hwriter hc hw, hactive hc ht⟩

/-- Locks and active transactions stay. -/
theorem of_pages (h : p.Owned) (hlocks : p'.locks = p.locks) (hactive : p'.active = p.active)
    (hchanged : ∀ {u q}, p'.HasChanged u q → p.HasChanged u q) : p'.Owned := by
  refine h.of_fewer (hlocks ▸ h.locks) hchanged (fun _ hw => ?_) (fun _ ht => ?_)
  · rw [hlocks]
    exact hw
  · rw [isActive, hactive]
    exact ht

/-- A page that somebody has changed is held. -/
theorem not_hasChanged (h : p.Owned) (hheld : p.locks.holds t q = false) : ¬ p.HasChanged t q := by
  intro hc
  have hholds := h.locks.holds_of_isWriter (h.owner hc).1
  rw [hheld] at hholds
  contradiction

end Owned

/-- The request of a call that has just been made can be relied on. -/
theorem Knows.careful (hc : p.Knows c) (h : p.Owned) : p.Careful c := by
  obtain ⟨r, task⟩ := c
  cases task with
  | insert tuple heldBefore install =>
    obtain ⟨hmode, hinstall, hheld⟩ := hc
    exact ⟨hmode, hinstall, fun hnot => h.not_hasChanged (hheld.symm.trans hnot)⟩
  | _ => exact hc

theorem Careful.of_fewer (hc : p.Careful c)
    (h : p'.HasChanged c.request.tid c.request.page → p.HasChanged c.request.tid c.request.page) :
    p'.Careful c := by
  obtain ⟨r, task⟩ := c
  cases task with
  | insert tuple heldBefore install =>
    obtain ⟨hmode, hinstall, hnot⟩ := hc
    exact ⟨hmode, hinstall, fun hheld => mt h (hnot hheld)⟩
  | _ => exact hc

theorem Careful.source (hc : p.Careful c) : c.task.source = .cache := by
  obtain ⟨r, task⟩ := c
  cases task with
  | edit source edited writes => exact hc.elim
  | _ => rfl

/-- Only inserts and deletes change pages, and they ask for them exclusively. -/
theorem Careful.exclusive {heap : HeapTable} (hc : p.Careful c)
    (he : c.task.edited? heap page = some edited) :
    c.request.mode = .exclusive ∧ edited.id = page.id := by
  obtain ⟨r, task⟩ := c
  cases task with
  | insert tuple heldBefore install =>
    obtain ⟨hmode, rfl, -⟩ := hc
    obtain ⟨data, rfl, -⟩ := HeapTable.place?_eq_some he
    exact ⟨hmode, rfl⟩
  | delete slot install =>
    obtain ⟨hmode, rfl⟩ := hc
    obtain ⟨data, rfl, -⟩ := HeapTable.remove?_eq_some he
    exact ⟨hmode, rfl⟩
  | _ => contradiction

namespace Works

theorem trans (h : Works t p p') (h' : Works t p' p'') : Works t p p'' :=
  ⟨h'.owned, fun hu hc => h.changed hu (h'.changed hu hc)⟩

theorem of_pages (h : p.Owned) (hpages : p'.pages = p.pages) (hlocks : p'.locks = p.locks)
    (hactive : p'.active = p.active) : Works t p p' :=
  ⟨h.of_pages hlocks hactive (hasChanged_congr hpages).1, fun _ => (hasChanged_congr hpages).1⟩

theorem acquire (h : p.Owned) (r : LockRequest) :
    Works t p { p with locks := (p.locks.acquire r).2 } := by
  refine ⟨h.of_fewer (h.locks.acquire r) id (fun _ => LockTable.isWriter_acquire) (fun _ => id), ?_⟩
  exact fun _ hc => hc

/-- A lock may go whose page the transaction has not changed. -/
theorem releaseLock (h : p.Owned) (hnot : ¬ p.HasChanged t q) : Works t p (p.releaseLock t q) := by
  refine ⟨h.of_fewer (h.locks.release t q) id ?_ (fun _ => id), fun _ hc => hc⟩
  intro u r hc hw
  apply LockTable.isWriter_release hw
  rintro ⟨rfl, rfl⟩
  exact hnot hc

theorem isActive_read (h : p.isActive u = true) : (p.read t q).2.isActive u = true := by
  have hself : (p.active.insert t).contains u = true := OrdSet.mem_insert.2 (.inr h)
  have hroom {p' : Pool} (hr : (p.afterMiss t).makeRoom = .ok p') : p'.isActive u = true :=
    (Silent.isActive_makeRoom hr).trans hself
  rcases read_cases p t q with ⟨page, -, hr⟩ | ⟨-, ⟨e, hr⟩ | ⟨p', hmade, ⟨e, hr⟩ | ⟨stored, -, hr⟩⟩⟩
  · rw [hr]
    exact hself
  · rw [hr]
    exact hself
  · rw [hr]
    exact hroom hmade
  · rw [hr]
    have hkept := hroom hmade
    exact hkept

theorem read {found : Except Error Page} (h : p.Owned) (hb : p.Bounded)
    (hr : p.read u q = (found, p')) : Works t p p' := by
  obtain ⟨hlocks, -, -⟩ := read_frame hr
  have hrereads := Rereads.read hb u q
  have hactive {v : TransactionId} (hv : p.isActive v = true) := isActive_read (t := u) (q := q) hv
  rw [hr] at hrereads
  simp only [hr] at hactive
  refine ⟨h.of_fewer (hlocks ▸ h.locks) hrereads.hasChanged ?_ (fun _ => hactive),
    fun _ => hrereads.hasChanged⟩
  intro v r _ hw
  rwa [hlocks]

/-- The writer of a page may change it. -/
theorem addDirty (h : p.Owned) (hw : p.locks.isWriter t page.id = true)
    (ht : p.isActive t = true) : Works t p (p.addDirty t page) := by
  have hcases {u : TransactionId} {q : PageId} (hc : (p.addDirty t page).HasChanged u q) :
      q = page.id ∧ u = t ∨ p.HasChanged u q := by
    obtain ⟨other, hq, hu⟩ := hc
    have hq' : (p.pages.insert page.id (page.markDirty t)).get? q = some other := hq
    rw [OrdMap.get?_insert] at hq'
    split at hq'
    · rename_i hid
      rw [← Option.some.inj hq'] at hu
      exact .inl ⟨hid, (Option.some.inj hu).symm⟩
    · exact .inr ⟨other, hq', hu⟩
  refine ⟨⟨h.locks, fun hc => ?_⟩, fun hu hc => ?_⟩
  · rcases hcases hc with ⟨rfl, rfl⟩ | hc
    · exact ⟨hw, ht⟩
    · exact h.owner hc
  · exact (hcases hc).resolve_left fun he => hu he.2

end Works

/-- A page that is handed out to be changed is cached, and locked for that. -/
theorem writer_of_edited {heap : HeapTable} (hc : p.Careful c)
    (hwriter : c.request.mode = .exclusive → p.locks.isWriter c.request.tid c.request.page = true)
    (hb : p.Bounded) (hr : p.read c.request.tid c.request.page = (.ok page, k))
    (he : c.task.edited? heap page = some edited) :
    k.locks.isWriter c.request.tid edited.id = true ∧ k.isCached edited.id = true := by
  obtain ⟨hq, -⟩ := read_eq_ok hr
  obtain ⟨hlocks, -, -⟩ := read_frame hr
  have hread := Rereads.read hb c.request.tid c.request.page
  rw [hr] at hread
  obtain ⟨hmode, hid⟩ := hc.exclusive he
  rw [hread.bounded.resident.id_eq hq] at hid
  rw [hid]
  refine ⟨?_, isCached_iff.2 ⟨page, hq⟩⟩
  rw [hlocks]
  exact hwriter hmode

theorem installable (hb : p.Bounded) (hw : p.locks.isWriter t page.id = true) :
    p.Installable t page := by
  refine ⟨LockTable.modeOf_eq_exclusive.2 (LockTable.isWriter_iff.1 hw), fun hcached => ?_,
    fun {e} he => ?_⟩
  · have hroom : p.makeRoomFor page.id = .ok p := if_pos hcached
    rw [install, if_pos hw, hroom]
    rfl
  · rw [install, if_pos hw] at he
    cases hroom : p.makeRoomFor page.id with
    | ok k =>
      rw [hroom] at he
      contradiction
    | error e' =>
      rw [hroom] at he
      obtain rfl := Except.error.inj he
      unfold makeRoomFor at hroom
      split at hroom
      · contradiction
      · exact (makeRoom_eq_error hb).1 hroom

/-- A page that is handed out while its exclusive lock is held may be changed in its place. -/
theorem deliver_edited {heap : HeapTable} (hc : p.Careful c)
    (hwriter : c.request.mode = .exclusive → p.locks.isWriter c.request.tid c.request.page = true)
    (hb : p.Bounded) (hr : p.read c.request.tid c.request.page = (.ok page, k))
    (he : c.task.edited? heap page = some edited) :
    k.locks.isWriter c.request.tid edited.id = true ∧ k.isActive c.request.tid = true ∧
      k.deliver c.request.tid true [edited] =
        (.ended (.ok .done), k.addDirty c.request.tid edited) := by
  obtain ⟨hw, hcached⟩ := writer_of_edited hc hwriter hb hr he
  have hread := Rereads.read hb c.request.tid c.request.page
  rw [hr] at hread
  have hinstall := (installable hread.bounded hw).installs hcached
  refine ⟨hw, (read_eq_ok hr).2, ?_⟩
  simp only [deliver, if_true, installAll, hinstall]
  rfl

/-- A call goes on under its lock, and what it asks for next it can rely on. -/
theorem works_resume (h : p.Owned) (hb : p.Bounded) (hc : p.Careful c)
    (hwriter : c.request.mode = .exclusive →
      p.locks.isWriter c.request.tid c.request.page = true) :
    Works c.request.tid p (p.resume c).2 ∧ ∀ c', (p.resume c).1 = .needs c' →
      c'.request.tid = c.request.tid ∧ (p.resume c).2.Careful c' := by
  have hsource := hc.source
  have hread {found : Except Error Page} {k : Pool}
      (ho : p.obtain c.request c.task.source = (found, k)) :
      p.read c.request.tid c.request.page = (found, k) := by
    rw [hsource] at ho
    exact ho
  generalize ho : p.resume c = o
  have hcases := resumes p c
  rw [ho] at hcases
  cases hcases with
  | stops hobtain _ => exact ⟨.read h hb (hread hobtain), nofun⟩
  | scans hobtain =>
    refine ⟨.read h hb (hread hobtain), fun c' hnext => ?_⟩
    rw [← Progress.needs.inj hnext]
    exact ⟨rfl, trivial⟩
  | installs hobtain _ he hdelivers =>
    have hworks : Works c.request.tid p _ := .read h hb (hread hobtain)
    obtain ⟨hw, hactive, hdone⟩ := deliver_edited hc hwriter hb (hread hobtain) he
    rw [hdelivers, hdone]
    exact ⟨hworks.trans (.addDirty hworks.owned hw hactive), nofun⟩
  | @seeks page k k' tuple heldBefore install n _ hobtain htask hk hseeks =>
    have hworks : Works c.request.tid p k := .read h hb (hread hobtain)
    have hrereads := Rereads.obtain hb hobtain
    obtain ⟨r, task⟩ := c
    obtain rfl : task = .insert tuple heldBefore install := htask
    obtain ⟨-, rfl, hnot⟩ := hc
    have hreleased : Works r.tid k k' := by
      rw [hk]
      cases heldBefore with
      | true => exact .of_pages hworks.owned rfl rfl rfl
      | false =>
        -- a lock that was taken for the look at a full page goes back
        exact .releaseLock hworks.owned fun hc => hnot rfl (hrereads.hasChanged hc)
    have hsought := hworks.trans hreleased
    obtain ⟨catalog, ⟨e, hs⟩ | ⟨c', hs, ht, hknows⟩⟩ :=
      seekRoom_cases k' r.tid r.page.table n tuple true
    · rw [hseeks, hs]
      exact ⟨hsought.trans (.of_pages hsought.owned rfl rfl rfl), nofun⟩
    · rw [hseeks, hs]
      refine ⟨hsought.trans (.of_pages hsought.owned rfl rfl rfl), fun c'' hnext => ?_⟩
      obtain rfl := Progress.needs.inj hnext
      refine ⟨ht, ((hknows rfl).careful hsought.owned).of_fewer ?_⟩
      exact (hasChanged_congr rfl).1
  | edits _ htask =>
    rw [htask] at hsource
    obtain ⟨r, task⟩ := c
    obtain rfl := htask
    exact hc.elim

/-- One lock request of a call. -/
theorem works_turn (h : p.Owned) (hb : p.Bounded) (hc : p.Careful c) :
    Works c.request.tid p (p.runCall 1 c).2 ∧ ∀ c', (p.runCall 1 c).1 = .blocked c' →
      c'.request.tid = c.request.tid ∧ (p.runCall 1 c).2.Careful c' := by
  have hlocked := Works.acquire (t := c.request.tid) h c.request
  have hc' : ({ p with locks := (p.locks.acquire c.request).2 } : Pool).Careful c :=
    hc.of_fewer (hasChanged_congr rfl).1
  have hb' := (Rereads.locks hb (p.locks.acquire c.request).2).bounded
  rcases runCall_one_cases p c with ⟨locks, ha, hrun⟩ | ⟨locks, ha, hrun⟩
  · rw [ha] at hlocked hc'
    rcases hrun with hrun | ⟨e, hrun⟩
    · rw [hrun]
      refine ⟨hlocked, fun c' hnext => ?_⟩
      obtain rfl := Pass.blocked.inj hnext
      exact ⟨rfl, hc'⟩
    · rw [hrun]
      exact ⟨hlocked, nofun⟩
  · have hwriter := LockTable.isWriter_of_granted ha
    rw [ha] at hlocked hc' hb'
    obtain ⟨hworks, hnext⟩ := works_resume hlocked.owned hb' hc' hwriter
    rcases hrun with ⟨r, p', hresume, hrun⟩ | ⟨c', p', hresume, hrun⟩
    · rw [hresume] at hworks
      rw [hrun]
      exact ⟨hlocked.trans hworks, nofun⟩
    · rw [hresume] at hworks hnext
      rw [hrun]
      refine ⟨hlocked.trans hworks, fun c'' hc'' => ?_⟩
      obtain rfl := Pass.blocked.inj hc''
      exact hnext c' rfl

/-- What a call asks for next it knows. -/
theorem Careful.knows {c' : Call} (hc : p.Careful c) (hrun : p.runCall 1 c = (.blocked c', p')) :
    c'.request.tid = c.request.tid ∧ (c' = c ∨ p'.Knows c') := by
  rcases runCall_one_cases p c with
    ⟨locks, -, h | ⟨e, h⟩⟩ | ⟨locks, ha, ⟨r, k, -, h⟩ | ⟨c'', k, hresume, h⟩⟩
  · cases hrun.symm.trans h
    exact ⟨rfl, .inl rfl⟩
  · cases hrun.symm.trans h
  · cases hrun.symm.trans h
  · cases hrun.symm.trans h
    have hcases := resumes { p with locks } c
    rw [hresume] at hcases
    cases hcases with
    | scans _ => exact ⟨rfl, .inr trivial⟩
    | @installs page k' heap edited _ _ _ _ hdelivers => cases (Prod.mk.inj hdelivers).1
    | @seeks page k k' tuple heldBefore install n _ _ htask _ hseeks =>
      obtain ⟨r, task⟩ := c
      obtain rfl : task = .insert tuple heldBefore install := htask
      obtain ⟨-, hinstall, -⟩ := hc
      obtain ⟨catalog, ⟨e, hs⟩ | ⟨c'', hs, ht, hknows⟩⟩ :=
        seekRoom_cases k' r.tid r.page.table n tuple install
      · cases (Prod.mk.inj (hseeks.trans hs)).1
      · cases hseeks.trans hs
        exact ⟨ht, .inr (hknows hinstall)⟩
    | edits _ htask =>
      obtain ⟨r, task⟩ := c
      obtain rfl := htask
      exact hc.elim

/-- A call that is about to install a page has changed nothing so far, and the page is cached and
locked for that. -/
theorem Installs.handed (hi : p.Installs c k edited) (h : p.Owned) (hb : p.Bounded)
    (hc : p.Careful c) :
    k.Bounded ∧ k.Owned ∧ (∀ {u q}, k.HasChanged u q → p.HasChanged u q) ∧
      k.locks.isWriter c.request.tid edited.id = true ∧ k.isCached edited.id = true := by
  obtain ⟨locks, page, heap, ha, ho, -, he⟩ := hi
  have hlocked := Works.acquire (t := c.request.tid) h c.request
  rw [ha] at hlocked
  have hb' := (Rereads.locks hb locks).bounded
  have hc' : ({ p with locks } : Pool).Careful c := hc.of_fewer (hasChanged_congr rfl).1
  have hread : ({ p with locks } : Pool).read c.request.tid c.request.page = (.ok page, k) := by
    rw [hc.source] at ho
    exact ho
  have hrereads := Rereads.read hb' c.request.tid c.request.page
  rw [hread] at hrereads
  have hworks : Works c.request.tid _ k := .read hlocked.owned hb' hread
  exact ⟨hrereads.bounded, hworks.owned,
    fun hchanged => hrereads.hasChanged hchanged,
    writer_of_edited hc' (LockTable.isWriter_of_granted ha) hb' hread he⟩

/-! Completions and flushes change no page for anybody. -/

theorem hasChanged_forEachPage {handle : Pool → Page → Except Error Unit × Pool}
    (hhandle : ∀ p page, ∃ d, ∀ r, (handle p page).2.pages.get? r =
      if r = page.id then some (.ofStored page.id d) else p.pages.get? r)
    {pages : List Page} (hc : (forEachPage handle p pages).2.HasChanged u q) :
    p.HasChanged u q ∧ q ∉ pages.map Page.id := by
  induction pages generalizing p with
  | nil => exact ⟨hc, List.not_mem_nil⟩
  | cons page pages ih =>
    obtain ⟨⟨other, hq, hu⟩, hrest⟩ := ih hc
    obtain ⟨d, hpages⟩ := hhandle p page
    rw [hpages] at hq
    split at hq
    · rw [← Option.some.inj hq] at hu
      contradiction
    · rename_i hne
      refine ⟨⟨other, hq, hu⟩, ?_⟩
      rw [List.map_cons, List.mem_cons, not_or]
      exact ⟨hne, hrest⟩

/-- A transaction whose changed pages have been handled has none left. -/
theorem hasChanged_dirtiedBy {handle : Pool → Page → Except Error Unit × Pool}
    (hhandle : ∀ p page, ∃ d, ∀ r, (handle p page).2.pages.get? r =
      if r = page.id then some (.ofStored page.id d) else p.pages.get? r)
    (h : p.Resident) (hp : p'.pages = p.pages)
    (hc : (forEachPage handle p' (p.dirtiedBy t)).2.HasChanged u q) : u ≠ t ∧ p.HasChanged u q := by
  obtain ⟨hold, hnot⟩ := hasChanged_forEachPage hhandle hc
  have hold' : p.HasChanged u q := (hasChanged_congr hp).1 hold
  refine ⟨?_, hold'⟩
  rintro rfl
  obtain ⟨page, hq, hu⟩ := hold'
  have hid := h.id_eq hq
  subst hid
  exact hnot (List.mem_map_of_mem ((mem_dirtiedBy h).2 ⟨hq, hu⟩))

theorem active_writeCommitted (p : Pool) (page : Page) :
    (p.writeCommitted page).2.active = p.active := by
  unfold writeCommitted
  split <;> rfl

theorem active_rollBack (p : Pool) (page : Page) : (p.rollBack page).2.active = p.active := by
  unfold rollBack
  split
  · split <;> rfl
  · rfl

theorem active_writeCommitted_all (p : Pool) (pages : List Page) :
    (forEachPage writeCommitted p pages).2.active = p.active :=
  forEachPage_preserves (P := fun k => k.active = p.active)
    (fun k page hk => (active_writeCommitted k page).trans hk) rfl pages

theorem active_rollBack_all (p : Pool) (pages : List Page) :
    (forEachPage rollBack p pages).2.active = p.active :=
  forEachPage_preserves (P := fun k => k.active = p.active)
    (fun k page hk => (active_rollBack k page).trans hk) rfl pages

theorem Owned.finish (h : p.Owned) (hlocks : p'.locks = p.locks) (hactive : p'.active = p.active)
    (hchanged : ∀ {u q}, p'.HasChanged u q → u ≠ t ∧ p.HasChanged u q) :
    ((p'.deactivate t).releaseAll t).Owned := by
  have howned : p'.Owned := h.of_pages hlocks hactive fun hc => (hchanged hc).2
  refine howned.of_fewer (howned.locks.releaseAll t) id (fun hc hw => ?_) (fun hc ht => ?_)
  · exact LockTable.isWriter_releaseAll (hchanged hc).1 hw
  · exact OrdSet.mem_erase.2 ⟨(hchanged hc).1, ht⟩

theorem Owned.complete (h : p.Owned) (hb : p.Bounded) (t : TransactionId) (commit : Bool) :
    (p.complete t commit).2.Owned ∧
      ∀ {u q}, (p.complete t commit).2.HasChanged u q → p.HasChanged u q := by
  cases commit with
  | true =>
    rcases commit_cases p t with ⟨e, journal, -, hc⟩ | ⟨journal, stats, -, -, hc⟩
    · simp only [Pool.complete, if_true, hc]
      exact ⟨h.of_pages rfl rfl id, id⟩
    · simp only [Pool.complete, if_true, hc]
      have hchanged {u : TransactionId} {q : PageId} := hasChanged_dirtiedBy (u := u) (q := q)
        (fun p page => ⟨_, get?_writeCommitted p page⟩) hb.resident
        (t := t) (rfl : ({ p with journal } : Pool).pages = p.pages)
      obtain ⟨-, hlocks, -⟩ := forEachPage_keeps (p := { p with journal }) writeCommitted_keeps
        (p.dirtiedBy t)
      have hactive := active_writeCommitted_all { p with journal } (p.dirtiedBy t)
      have hfinished := h.finish hlocks hactive hchanged
      exact ⟨hfinished.of_pages rfl rfl id, fun hc => (hchanged hc).2⟩
  | false =>
    rcases abort_cases p t with ⟨-, journal, stats, habort⟩ | ⟨ht, habort⟩
    · simp only [Pool.complete, Bool.false_eq_true, if_false, habort]
      have hchanged {u : TransactionId} {q : PageId} := hasChanged_dirtiedBy (u := u) (q := q)
        (fun p page => ⟨_, get?_rollBack p page⟩) hb.resident (t := t) (rfl : p.pages = p.pages)
      obtain ⟨-, hlocks, -⟩ := forEachPage_keeps (p := p) rollBack_keeps (p.dirtiedBy t)
      have hactive := active_rollBack_all p (p.dirtiedBy t)
      have hfinished := h.finish hlocks hactive hchanged
      exact ⟨hfinished.of_pages rfl rfl id, fun hc => (hchanged hc).2⟩
    · simp only [Pool.complete, Bool.false_eq_true, if_false, habort]
      -- who is not active has changed nothing
      have hchanged {u : TransactionId} {q : PageId} (hc : p.HasChanged u q) : u ≠ t := by
        rintro rfl
        exact ht (h.owner hc).2
      refine ⟨h.of_fewer (h.locks.releaseAll t) id (fun hc hw => ?_) (fun _ => id), id⟩
      exact LockTable.isWriter_releaseAll (hchanged hc) hw

theorem Owned.flush (h : p.Owned) (q : PageId) :
    (p.flush q).2.Owned ∧ ∀ {u r}, (p.flush q).2.HasChanged u r → p.HasChanged u r := by
  rcases flush_cases p q (fun hq hown => (h.owner ⟨_, hq, hown⟩).2) with
    ⟨journal, hf⟩ | ⟨page, catalog, journal, -, -, ⟨owner, -, hf⟩ | ⟨hclean, hf⟩⟩
  · rw [hf]
    exact ⟨h.of_pages rfl rfl id, id⟩
  · rw [hf]
    exact ⟨h.of_pages rfl rfl id, id⟩
  · rw [hf]
    have hchanged {u : TransactionId} {r : PageId}
        (hc : ((({ p with journal } : Pool).noteWritten page.id catalog).settlePage page
          true).HasChanged u r) : p.HasChanged u r := by
      obtain ⟨other, hr, hu⟩ := hc
      rw [get?_settlePage] at hr
      split at hr
      · rw [← Option.some.inj hr, hclean] at hu
        contradiction
      · exact ⟨other, hr, hu⟩
    exact ⟨h.of_pages rfl rfl hchanged, hchanged⟩

theorem Owned.flushEach (h : p.Owned) (qs : List PageId) :
    (p.flushEach qs).2.Owned ∧ ∀ {u r}, (p.flushEach qs).2.HasChanged u r → p.HasChanged u r := by
  refine flushEach_preserves
    (P := fun k => k.Owned ∧ ∀ {u r}, k.HasChanged u r → p.HasChanged u r) ?_ ⟨h, id⟩ qs
  rintro k q ⟨howned, hchanged⟩
  obtain ⟨howned', hchanged'⟩ := howned.flush q
  exact ⟨howned', fun hc => hchanged (hchanged' hc)⟩

theorem Owned.discard (h : p.Owned) (q : PageId) :
    (p.discard q).Owned ∧ ∀ {u r}, (p.discard q).HasChanged u r → p.HasChanged u r := by
  unfold Pool.discard
  split
  · have hchanged {u : TransactionId} {r : PageId} {page : Page}
        (hr : (p.pages.erase q).get? r = some page) (hu : page.dirtiedBy = some u) :
        p.HasChanged u r := by
      rw [OrdMap.get?_erase] at hr
      split at hr
      · contradiction
      · exact ⟨page, hr, hu⟩
    exact ⟨h.of_pages rfl rfl fun ⟨_, hr, hu⟩ => hchanged hr hu, fun ⟨_, hr, hu⟩ => hchanged hr hu⟩
  · exact ⟨h, id⟩

end Pool

namespace World

variable {w : World} {p : Pool} {capacity : Nat} {catalog : Catalog} {journal : Journal}

/-- What callers keep to who may drop cached pages: a transaction makes one call at a time, and
nobody gives up single locks. -/
def SingleCalls (w : World) : Action → Prop
  | .call _ c => w.Idle c.tid
  | .complete t _ => w.Idle t
  | .releaseLock _ _ => False
  | _ => True

instance (w : World) : (a : Action) → Decidable (w.SingleCalls a)
  | .call _ c => inferInstanceAs (Decidable (w.Idle c.tid))
  | .complete t _ => inferInstanceAs (Decidable (w.Idle t))
  | .releaseLock _ _ => isFalse id
  | .begin => isTrue trivial
  | .turn _ => isTrue trivial
  | .flush _ => isTrue trivial
  | .flushAll => isTrue trivial
  | .flushOf _ => isTrue trivial
  | .discard _ => isTrue trivial
  | .failStore _ _ => isTrue trivial
  | .failLog _ _ => isTrue trivial

/-- Single calls of the others: the transaction makes no call, none of its calls has a turn, and it does
not complete. -/
def OfOthers (t : TransactionId) (w : World) (a : Action) : Prop :=
  w.SingleCalls a ∧
    match a with
    | .call _ c => c.tid ≠ t
    | .turn j => ∀ call ∈ w.session.pending[j]?, call.call.request.tid ≠ t
    | .complete u _ => u ≠ t
    | _ => True

theorem Orderly.singleCalls {a : Action} (ha : w.Orderly a) : w.SingleCalls a := by
  cases a with
  | call step c => exact ha
  | complete t commit => exact ha
  | releaseLock t q => exact ha
  | _ => trivial

theorem Reaches.mono {rule rule' : World → Action → Prop} {start : World}
    (hr : Reaches rule start w) (hrule : ∀ w a, rule w a → rule' w a) : Reaches rule' start w := by
  induction hr with
  | refl => exact .refl
  | step _ ha ih => exact ih.step (hrule _ _ ha)

/-- What single calls keep up: changed pages have their owners, no two waiting calls are of one
transaction, and each can rely on what it knows. -/
structure Owned (w : World) : Prop where
  bounded : w.pool.Bounded
  owned : w.pool.Owned
  one_call : (w.session.pending.map fun p => p.call.request.tid).Nodup
  careful : ∀ p ∈ w.session.pending, w.pool.Careful p.call

namespace Owned

/-- The pool may change under waiting calls, as long as nobody gets more changed pages. -/
theorem withPool (h : w.Owned) {p' : Pool} (hb : p'.Bounded)
    (hp : p'.Owned ∧ ∀ {u q}, p'.HasChanged u q → w.pool.HasChanged u q) :
    (w.withPool p').Owned :=
  ⟨hb, hp.1, h.one_call, fun call hcall => (h.careful call hcall).of_fewer hp.2⟩

theorem turn (h : w.Owned) (i : Nat) : (w.turn i).2.Owned := by
  have hbounded := (spares_turn h.bounded i).bounded
  cases hi : w.session.pending[i]? with
  | none => rwa [turn_of_absent hi]
  | some call =>
    have hc := h.careful call (List.mem_of_getElem? hi)
    obtain ⟨hworks, hnext⟩ := Pool.works_turn h.owned h.bounded hc
    rcases hrun : w.pool.runCall 1 call.call with ⟨pass, p'⟩
    rw [hrun] at hworks hnext
    have hothers : ∀ other ∈ w.session.pending,
        other.call.request.tid ≠ call.call.request.tid → p'.Careful other.call :=
      fun other hother hne => (h.careful other hother).of_fewer (hworks.changed hne)
    cases pass with
    | ended result =>
      rw [turn_of_ended hi hrun] at hbounded ⊢
      exact ⟨hbounded, hworks.owned, h.one_call.sublist ((List.eraseIdx_sublist _ _).map _),
        forall_mem_eraseIdx h.one_call hi hothers⟩
    | blocked c =>
      obtain ⟨ht, hcareful⟩ := hnext c rfl
      rw [turn_of_blocked hi hrun] at hbounded ⊢
      refine ⟨hbounded, hworks.owned, ?_, forall_mem_set h.one_call hi hcareful hothers⟩
      simp only [tids_set hi ht]
      exact h.one_call

theorem issue (h : w.Owned) {c : Command} (hidle : w.Idle c.tid) (step : Nat) :
    (w.issue step c).2.Owned := by
  have hbounded := (spares_issue h.bounded step c).bounded
  have hstart (catalog : Catalog) : ({ w.pool with catalog } : Pool).Owned :=
    h.owned.of_pages rfl rfl id
  have hothers (catalog : Catalog) : ∀ other ∈ w.session.pending,
      ({ w.pool with catalog } : Pool).Careful other.call :=
    fun other hother => (h.careful other hother).of_fewer id
  obtain ⟨catalog, ⟨result, hs⟩ | ⟨call, hs, ht, hknows⟩⟩ := Pool.start_cases w.pool c
  · simp only [World.issue, hs] at hbounded ⊢
    exact ⟨hbounded, hstart catalog, h.one_call, hothers catalog⟩
  · simp only [World.issue, hs] at hbounded ⊢
    refine ⟨hbounded, hstart catalog, nodup_append h.one_call fun other hother => ?_, ?_⟩
    · rw [ht]
      exact hidle other hother
    · intro other hother
      rcases List.mem_append.1 hother with hother | hother
      · exact hothers catalog other hother
      · rw [List.mem_singleton.1 hother]
        exact (hknows.careful h.owned).of_fewer id

/-- Every step of single calls keeps changed pages with their owners. -/
theorem perform (h : w.Owned) {a : Action} (ha : w.SingleCalls a) : (w.perform a).Owned := by
  have hbounded := (bounded_perform h.bounded a).1
  cases a with
  | begin =>
    refine h.withPool hbounded ⟨h.owned.of_fewer h.owned.locks id (fun _ => id) ?_, id⟩
    exact fun _ ht => OrdSet.mem_insert.2 (.inr ht)
  | call step c => exact h.issue ha step
  | turn i => exact h.turn i
  | complete t commit =>
    have hdone := h.withPool hbounded (h.owned.complete h.bounded t commit)
    exact ⟨hdone.bounded, hdone.owned, hdone.one_call, hdone.careful⟩
  | flush page => exact h.withPool hbounded (h.owned.flush page)
  | flushAll => exact h.withPool hbounded (h.owned.flushEach _)
  | flushOf t => exact h.withPool hbounded (h.owned.flushEach _)
  | discard page => exact h.withPool hbounded (h.owned.discard page)
  | releaseLock t page => exact ha.elim
  | failStore table faults =>
    simp only [World.perform] at hbounded ⊢
    cases hf : w.pool.catalog.setFaults table faults with
    | error e => exact h
    | ok catalog =>
      rw [hf] at hbounded
      exact h.withPool hbounded ⟨h.owned.of_pages rfl rfl id, id⟩
  | failLog refuses forceFails =>
    exact h.withPool hbounded ⟨h.owned.of_pages rfl rfl id, id⟩

end Owned

theorem owned_ofPool (hp : Pool.make capacity catalog journal = .ok p) : (ofPool p).Owned :=
  ⟨(Pool.bounded_make hp).1, Pool.owned_make hp, List.nodup_nil, nofun⟩

theorem Reaches.owned {start : World} (hr : Reaches SingleCalls start w) (h : start.Owned) :
    w.Owned := by
  induction hr with
  | refl => exact h
  | step _ ha ih => exact ih.perform ha

/-- What others do moves no lock of a transaction. -/
theorem modeOf_perform {t : TransactionId} {a : Action} (hv : w.pool.locks.Valid)
    (ha : OfOthers t w a) : (w.perform a).pool.locks.modeOf t = w.pool.locks.modeOf t := by
  obtain ⟨hsingle, hother⟩ := ha
  have hsame {locks : LockTable} (h : locks = w.pool.locks) :
      locks.modeOf t = w.pool.locks.modeOf t := by rw [h]
  cases a with
  | call step c =>
    obtain ⟨catalog, ⟨result, hs⟩ | ⟨call, hs, -⟩⟩ := Pool.start_cases w.pool c
    · simp only [perform, issue, hs]
      rfl
    · simp only [perform, issue, hs]
      rfl
  | turn j =>
    cases hj : w.session.pending[j]? with
    | none => simp only [perform, turn_of_absent hj]
    | some call =>
      simp only [perform]
      rw [pool_turn hj]
      exact Pool.modeOf_turn_of_ne hv (hother call hj).symm
  | complete u commit =>
    rcases Pool.locks_complete w.pool u commit with hlocks | hlocks
    · exact hsame hlocks
    · refine (congrArg (fun l : LockTable => l.modeOf t) hlocks).trans ?_
      funext q
      rw [LockTable.modeOf_releaseAll hv, if_neg (Ne.symm hother)]
  | flush q => exact hsame (Pool.locks_flush w.pool q)
  | flushAll => exact hsame (Pool.locks_flushEach w.pool _)
  | flushOf u => exact hsame (Pool.locks_flushEach w.pool _)
  | discard q => exact hsame (Pool.locks_discard w.pool q)
  | releaseLock u q => exact hsingle.elim
  | failStore table faults =>
    simp only [perform]
    cases w.pool.catalog.setFaults table faults with
    | error e => rfl
    | ok catalog => rfl
  | _ => rfl

theorem Reaches.modeOf_eq {t : TransactionId} {start : World} (hr : Reaches (OfOthers t) start w)
    (hv : start.pool.locks.Valid) : w.pool.locks.modeOf t = start.pool.locks.modeOf t := by
  induction hr with
  | refl => rfl
  | step hr ha ih => exact (modeOf_perform (hr.valid_locks hv) ha).trans ih

/-- Whatever the others do before a call installs the page that it has changed, the page can be
installed then. -/
theorem Owned.installable (h : w.Owned) {call : Pending Call} {k : Pool} {edited : Page}
    (hcall : call ∈ w.session.pending) (hi : w.pool.Installs call.call k edited) {w' : World}
    (hr : Reaches (OfOthers call.call.request.tid) (w.withPool k) w') :
    w'.pool.Installable call.call.request.tid edited := by
  obtain ⟨hbounded, howned, hchanged, hwriter, -⟩ :=
    hi.handed h.owned h.bounded (h.careful call hcall)
  have hstart : (w.withPool k).Owned := h.withPool hbounded ⟨howned, hchanged⟩
  have hlater := (hr.mono fun _ _ => And.left).owned hstart
  have hmode := congrFun (hr.modeOf_eq howned.locks) edited.id
  refine Pool.installable hlater.bounded (LockTable.isWriter_iff.2 ?_)
  rw [← LockTable.modeOf_eq_exclusive, hmode, LockTable.modeOf_eq_exclusive]
  exact LockTable.isWriter_iff.1 hwriter

/-- Whatever anybody does, a pool caches no more pages than it may and tracks just these, its
unsynced pages are cached, and a page may be evicted just if it is clean and not unsynced. So a page
that somebody has changed, or that the store has refused, leaves the cache only by being discarded.
If each transaction makes one call at a time and gives up no lock, who has changed a page is active
and holds it exclusively, and a page that is about to be installed is always locked for that: it is
cached when it has been changed, and whatever the others do from then on, it stays locked until it is
installed. -/
theorem cache_bounded_and_owned (hp : Pool.make capacity catalog journal = .ok p) :
    (∀ w, Reaches (fun _ _ => True) (ofPool p) w →
      w.pool.pages.size ≤ capacity ∧
      (∀ q, w.pool.recency.isTracked q = true ↔ w.pool.isCached q = true) ∧
      (∀ q ∈ w.pool.unsynced, w.pool.isCached q = true) ∧
      (∀ q, w.pool.recency.isEvictable q = true ↔
        ∃ page, w.pool.pages.get? q = some page ∧ page.dirtiedBy = none ∧ q ∉ w.pool.unsynced) ∧
      ∀ a, (∀ q, w.pool.Pinned q → a ≠ .discard q → (w.perform a).pool.isCached q = true) ∧
        ∀ x ∈ w.writes a, x.Refused → (w.perform a).pool.Pinned x.page.id) ∧
    ∀ w, Reaches SingleCalls (ofPool p) w →
      (∀ t q page, w.pool.pages.get? q = some page → page.dirtiedBy = some t →
        w.pool.isActive t = true ∧ w.pool.locks.modeOf t q = some .exclusive) ∧
      ∀ call ∈ w.session.pending, ∀ k edited, w.pool.Installs call.call k edited →
        k.locks.modeOf call.call.request.tid edited.id = some .exclusive ∧
        k.isCached edited.id = true ∧
        ∀ w', Reaches (OfOthers call.call.request.tid) (w.withPool k) w' →
          w'.pool.Installable call.call.request.tid edited := by
  obtain ⟨hbounded, hcapacity⟩ := Pool.bounded_make hp
  constructor
  · intro w hw
    obtain ⟨h, hsame⟩ := hw.bounded hbounded
    refine ⟨?_, fun q => h.resident.tracked_iff, fun q => h.resident.cached_of_unsynced,
      fun q => h.resident.evictable_iff, fun a => ⟨(bounded_perform h a).2.2, fun x hx => ?_⟩⟩
    · have hsize := h.size_le
      rw [hsame] at hsize
      exact hcapacity ▸ hsize
    · exact pinned_of_refused h hx
  · intro w hw
    have h := hw.owned (owned_ofPool hp)
    constructor
    · intro t q page hq ht
      obtain ⟨hwriter, hactive⟩ := h.owned.owner ⟨page, hq, ht⟩
      exact ⟨hactive, LockTable.modeOf_eq_exclusive.2 (LockTable.isWriter_iff.1 hwriter)⟩
    · intro call hcall k edited hi
      obtain ⟨-, -, -, hwriter, hcached⟩ := hi.handed h.owned h.bounded (h.careful call hcall)
      exact ⟨LockTable.modeOf_eq_exclusive.2 (LockTable.isWriter_iff.1 hwriter), hcached,
        fun w' => h.installable hcall hi⟩

/-- A transaction is about to insert into the only page of a table. -/
def aboutToInsert : World := (ofPool onePage).performAll [.begin, .call 0 (.insert ⟨1⟩ ⟨1⟩ [7])]

/-- It has been handed the page, and has not yet installed what it has made of it. -/
def pageHanded : Pool :=
  ({ aboutToInsert.pool with
    locks := (aboutToInsert.pool.locks.acquire ⟨⟨1⟩, ⟨⟨1⟩, 0⟩, .exclusive⟩).2 }.read ⟨1⟩ ⟨⟨1⟩, 0⟩).2

/-- The one place of a cache is taken by a committed page that the store has refused; a flushed page
belongs to its writer; and a page that others discard before it is installed stays locked for that. -/
theorem refused_page_stays :
    ((ofPool onePage).performAll commitUnwritten).pool.pages.size ≤ 1 ∧
      ((ofPool onePage).performAll commitUnwritten).pool.recency.isEvictable ⟨⟨1⟩, 0⟩ = false ∧
      ((ofPool onePage).performAll insertThenFlush).pool.locks.modeOf ⟨1⟩ ⟨⟨1⟩, 0⟩ =
        some .exclusive ∧
      (pageHanded.discard ⟨⟨1⟩, 0⟩).isCached ⟨⟨1⟩, 0⟩ = false ∧
      (pageHanded.discard ⟨⟨1⟩, 0⟩).Installable ⟨1⟩ ⟨⟨⟨1⟩, 0⟩, [1, 7], [0, 0], none⟩ := by
  obtain ⟨hall, hsingle⟩ := cache_bounded_and_owned make_onePage
  have hrefused : Reaches Orderly (ofPool onePage) ((ofPool onePage).performAll commitUnwritten) :=
    Reaches.refl.performAll (by decide)
  have hflushed : Reaches Orderly (ofPool onePage) ((ofPool onePage).performAll insertThenFlush) :=
    Reaches.refl.performAll (by decide)
  have habout : Reaches Orderly (ofPool onePage) aboutToInsert :=
    Reaches.refl.performAll (by decide)
  obtain ⟨hsize, -, -, hevictable, -⟩ := hall _ (hrefused.mono fun _ _ _ => trivial)
  obtain ⟨howner, -⟩ := hsingle _ (hflushed.mono fun _ _ => Orderly.singleCalls)
  obtain ⟨-, hinstalls⟩ := hsingle _ (habout.mono fun _ _ => Orderly.singleCalls)
  have hunsynced : ⟨⟨1⟩, 0⟩ ∈ ((ofPool onePage).performAll commitUnwritten).pool.unsynced := by
    decide +kernel
  have hpage : ((ofPool onePage).performAll insertThenFlush).pool.pages.get? ⟨⟨1⟩, 0⟩ =
      some ⟨⟨⟨1⟩, 0⟩, [1, 7], [0, 0], some ⟨1⟩⟩ := by decide +kernel
  have hedited : aboutToInsert.pool.Installs
      ⟨⟨⟨1⟩, ⟨⟨1⟩, 0⟩, .exclusive⟩, .insert [7] false true⟩ pageHanded
      ⟨⟨⟨1⟩, 0⟩, [1, 7], [0, 0], none⟩ :=
    ⟨_, .ofStored ⟨⟨1⟩, 0⟩ [0, 0], _, rfl, rfl, rfl, rfl⟩
  obtain ⟨-, -, hlater⟩ := hinstalls ⟨0, _⟩ (List.mem_singleton_self _) _ _ hedited
  have hdiscarded : Reaches (OfOthers ⟨1⟩) (aboutToInsert.withPool pageHanded)
      ((aboutToInsert.withPool pageHanded).perform (.discard ⟨⟨1⟩, 0⟩)) :=
    .step .refl ⟨trivial, trivial⟩
  have hpool (w : World) (k : Pool) (q : PageId) :
      ((w.withPool k).perform (.discard q)).pool = k.discard q := rfl
  have hinstallable := hlater _ hdiscarded
  rw [hpool] at hinstallable
  refine ⟨hsize, ?_, (howner _ _ _ hpage rfl).2, by decide +kernel, hinstallable⟩
  rw [Bool.eq_false_iff]
  intro hon
  obtain ⟨page, -, -, hsynced⟩ := (hevictable _).1 hon
  exact hsynced hunsynced

end World

end PagePool
