import PagePool.Proofs.Lock.Graph
import PagePool.Proofs.Lock.Sessions

namespace PagePool

open Relation

namespace LockTable

/-- `h` holds a lock that keeps a request from being granted. -/
def Blocks (l : LockTable) (r : LockRequest) (h : TransactionId) : Prop :=
  h ≠ r.tid ∧ ∃ held, l.modeOf h r.page = some held ∧ r.mode.isCompatible held = false

/-- Every edge of the graph stands for a lock that blocks what its waiter has asked for. -/
def EdgesGenuine (l : LockTable) : Prop :=
  ∀ w h, l.waitsFor.Edge w h →
    ∃ page mode, l.waiting.get? w = some (page, mode) ∧ l.Blocks ⟨w, page, mode⟩ h

variable {l : LockTable} {r q : LockRequest} {t w h : TransactionId} {page : PageId}

theorem blocks_iff_mem_conflicting : l.Blocks r h ↔ h ∈ l.conflicting r := by
  simp only [Blocks, mem_conflicting, modeOf, isWriter_iff, ← OrdSet.mem_iff]
  by_cases hw : l.writer.get? r.page = some h
  · cases r.mode <;> simp [hw, LockMode.isCompatible]
  · by_cases hr : h ∈ l.readersOf r.page
    · cases r.mode <;> simp [hw, hr, LockMode.isCompatible]
    · simp [hw, hr]

theorem blocks_congr {k : LockTable} (hr : k.readers = l.readers) (hw : k.writer = l.writer) :
    k.Blocks r h ↔ l.Blocks r h := by
  have hread : k.readersOf r.page = l.readersOf r.page := by rw [readersOf, hr]; rfl
  simp only [blocks_iff_mem_conflicting, mem_conflicting, hw, hread]

/-- A grant takes no lock from anybody: a reader that it replaces is the new writer itself. -/
theorem blocks_grant (hg : l.isGrantable r = true) (hb : l.Blocks q h) : (l.grant r).Blocks q h := by
  by_cases hw : l.isWriter r.tid r.page = true
  · rwa [grant_of_isWriter hw]
  rw [blocks_iff_mem_conflicting, mem_conflicting] at hb ⊢
  obtain ⟨hne, hb⟩ := hb
  refine ⟨hne, ?_⟩
  rw [get?_writer_grant, mem_readersOf_grant hw]
  by_cases hx : q.page = r.page ∧ r.mode = .exclusive
  · -- only a sole reader becomes the writer of a page that is read
    have hself : h = r.tid := by
      by_contra hnr
      rcases hb with hb | ⟨-, hb⟩
      · exact not_writer_of_isGrantable hg hnr (hx.1 ▸ hb)
      · rcases isGrantable_iff.1 hg with hr | hc
        · exact hw (isWriter_iff.2 hr)
        · exact hc h (mem_conflicting.2 ⟨hnr, .inr ⟨hx.2, hx.1 ▸ hb⟩⟩)
    rw [if_pos hx, hself]
    exact .inl rfl
  · rw [if_neg hx]
    rcases hb with hb | ⟨hm, hb⟩
    · exact .inl hb
    · refine .inr ⟨hm, .inl ⟨hb, fun hp => ?_⟩⟩
      cases hmode : r.mode with
      | shared => rfl
      | exclusive => exact absurd ⟨hp, hmode⟩ hx

theorem blocks_drop : (l.drop t page).Blocks q h ↔ l.Blocks q h ∧ ¬(q.page = page ∧ h = t) := by
  simp only [blocks_iff_mem_conflicting, mem_conflicting, get?_writer_drop, mem_readersOf_drop]
  grind

theorem blocks_foldl_drop {pages : List PageId} :
    (pages.foldl (fun l page => l.drop t page) l).Blocks q h ↔
      l.Blocks q h ∧ ¬(q.page ∈ pages ∧ h = t) := by
  induction pages generalizing l with
  | nil => simp
  | cons page pages ih =>
    rw [List.foldl_cons, ih, blocks_drop, List.mem_cons]
    grind

theorem edge_refreshWaiter {mode : LockMode} :
    (l.refreshWaiter t page mode).waitsFor.Edge w h ↔
      l.waitsFor.Edge w h ∧ (w = t → l.Blocks ⟨w, page, mode⟩ h) := by
  have hprev : h ∈ (l.waitsFor.waitsOn? t).getD .empty ↔ l.waitsFor.Edge t h := by
    unfold WaitsFor.Edge
    cases l.waitsFor.waitsOn? t <;> simp
  simp only [refreshWaiter, WaitsFor.edge_setWaits, OrdSet.mem_inter, hprev,
    blocks_iff_mem_conflicting]
  by_cases hw : w = t
  · subst hw
    simp [and_comm]
  · simp [hw]

/-- A release keeps of the edges of those who wait for the page the ones that still block them. -/
theorem edge_refreshWaiters :
    (l.refreshWaiters page).waitsFor.Edge w h ↔
      l.waitsFor.Edge w h ∧
        ∀ mode, l.waiting.get? w = some (page, mode) → l.Blocks ⟨w, page, mode⟩ h := by
  -- one waiter's edges are cut at a time, and no cut moves a lock
  have hfold (ws : List (TransactionId × PageId × LockMode)) (k : LockTable) :
      (ws.foldl (fun l w => l.refreshWaiter w.1 w.2.1 w.2.2) k).waitsFor.Edge w h ↔
        k.waitsFor.Edge w h ∧ ∀ e ∈ ws, w = e.1 → k.Blocks ⟨w, e.2.1, e.2.2⟩ h := by
    induction ws generalizing k with
    | nil => simp
    | cons e ws ih =>
      have hsame (r : LockRequest) : (k.refreshWaiter e.1 e.2.1 e.2.2).Blocks r h ↔ k.Blocks r h :=
        blocks_congr rfl rfl
      rw [List.foldl_cons, ih, edge_refreshWaiter]
      simp only [hsame, List.mem_cons, forall_eq_or_imp, and_assoc]
  rw [refreshWaiters, hfold]
  refine and_congr_right fun _ => ?_
  constructor
  · intro hall mode hw
    have hmem : (w, page, mode) ∈ l.waiting.entries := OrdMap.get?_eq_some_iff.1 hw
    exact hall (w, page, mode) (List.mem_filter.2 ⟨hmem, by simp⟩) rfl
  · rintro hall ⟨v, p, mode⟩ he rfl
    obtain ⟨hmem, hp⟩ := List.mem_filter.1 he
    obtain rfl : p = page := by simpa using hp
    exact hall mode (OrdMap.get?_eq_some_iff.2 hmem)

@[simp] theorem waiting_foldl_refreshWaiters (l : LockTable) (pages : List PageId) :
    (pages.foldl refreshWaiters l).waiting = l.waiting := by
  induction pages generalizing l with
  | nil => rfl
  | cons page pages ih => rw [List.foldl_cons, ih, waiting_refreshWaiters]

theorem blocks_foldl_refreshWaiters {pages : List PageId} :
    (pages.foldl refreshWaiters l).Blocks q h ↔ l.Blocks q h := by
  induction pages generalizing l with
  | nil => rfl
  | cons page pages ih =>
    rw [List.foldl_cons, ih]
    exact blocks_congr (readers_refreshWaiters l page) (writer_refreshWaiters l page)

theorem edge_foldl_refreshWaiters {pages : List PageId}
    (he : (pages.foldl refreshWaiters l).waitsFor.Edge w h) : l.waitsFor.Edge w h := by
  induction pages generalizing l with
  | nil => exact he
  | cons page pages ih => exact (edge_refreshWaiters.1 (ih he)).1

@[simp] theorem waiting_foldl_drop (l : LockTable) (t : TransactionId) (pages : List PageId) :
    (pages.foldl (fun l page => l.drop t page) l).waiting = l.waiting := by
  induction pages generalizing l with
  | nil => rfl
  | cons page pages ih => exact ih (l.drop t page)

@[simp] theorem waitsFor_foldl_drop (l : LockTable) (t : TransactionId) (pages : List PageId) :
    (pages.foldl (fun l page => l.drop t page) l).waitsFor = l.waitsFor := by
  induction pages generalizing l with
  | nil => rfl
  | cons page pages ih => exact ih (l.drop t page)

theorem waiting_tryAcquire (l : LockTable) (r : LockRequest) :
    (l.tryAcquire r).2.waiting = l.waiting := by
  unfold tryAcquire
  split
  · exact waiting_grant l r
  · rfl

theorem waiting_release (l : LockTable) (t : TransactionId) (page : PageId) :
    (l.release t page).waiting = l.waiting := by
  unfold release
  split
  · exact waiting_refreshWaiters _ page
  · rfl

theorem get?_waiting_releaseAll (l : LockTable) (t w : TransactionId) :
    (l.releaseAll t).waiting.get? w = if w = t then none else l.waiting.get? w := by
  simp [releaseAll, OrdMap.get?_erase]

theorem edge_releaseAll (he : (l.releaseAll t).waitsFor.Edge w h) :
    w ≠ t ∧ h ≠ t ∧ l.waitsFor.Edge w h := by
  unfold releaseAll at he
  have hremove := edge_foldl_refreshWaiters he
  simp only [waitsFor_foldl_drop] at hremove
  exact WaitsFor.edge_remove.1 hremove

theorem blocks_releaseAll :
    (l.releaseAll t).Blocks q h ↔ l.Blocks q h ∧ ¬(q.page ∈ l.pagesLocked t ∧ h = t) := by
  unfold releaseAll
  simp only
  rw [blocks_foldl_refreshWaiters, ← blocks_foldl_drop]
  exact blocks_congr rfl rfl

theorem edgesGenuine_empty : empty.EdgesGenuine := fun _ _ he => absurd he WaitsFor.not_edge_empty

namespace EdgesGenuine

theorem grant (hl : l.EdgesGenuine) (hg : l.isGrantable r = true) : (l.grant r).EdgesGenuine := by
  intro w h he
  rw [waitsFor_grant] at he
  obtain ⟨page, mode, hw, hb⟩ := hl w h he
  exact ⟨page, mode, by rwa [waiting_grant], blocks_grant hg hb⟩

theorem stopWaiting (hl : l.EdgesGenuine) (t : TransactionId) : (l.stopWaiting t).EdgesGenuine := by
  intro w h he
  obtain ⟨hne, he⟩ := WaitsFor.edge_clear.1 he
  obtain ⟨page, mode, hw, hb⟩ := hl w h he
  refine ⟨page, mode, ?_, hb⟩
  simp [LockTable.stopWaiting, OrdMap.get?_erase, hne, hw]

theorem wait (hl : l.EdgesGenuine) (r : LockRequest) : (l.wait r).EdgesGenuine := by
  intro w h he
  rcases WaitsFor.edge_setWaits.1 he with ⟨rfl, hmem⟩ | ⟨hne, he⟩
  · refine ⟨r.page, r.mode, ?_, blocks_iff_mem_conflicting.2 hmem⟩
    simp [LockTable.wait, OrdMap.get?_insert]
  · obtain ⟨page, mode, hw, hb⟩ := hl w h he
    refine ⟨page, mode, ?_, hb⟩
    simp [LockTable.wait, OrdMap.get?_insert, hne, hw]

theorem acquire (hl : l.EdgesGenuine) (r : LockRequest) : (l.acquire r).2.EdgesGenuine := by
  unfold LockTable.acquire
  split
  · rename_i hg
    exact (hl.grant hg).stopWaiting r.tid
  · split
    · exact hl.stopWaiting r.tid
    · exact hl.wait r

theorem tryAcquire (hl : l.EdgesGenuine) (r : LockRequest) : (l.tryAcquire r).2.EdgesGenuine := by
  unfold LockTable.tryAcquire
  split
  · rename_i hg
    exact hl.grant hg
  · exact hl

/-- Of the waiters only those for the released page can lose a reason to wait. -/
theorem release (hl : l.EdgesGenuine) (t : TransactionId) (page : PageId) :
    (l.release t page).EdgesGenuine := by
  intro w h he
  unfold LockTable.release at he ⊢
  split at he
  · rename_i hm
    rw [if_pos hm]
    obtain ⟨he, hkept⟩ := edge_refreshWaiters.1 he
    obtain ⟨p, mode, hw, hb⟩ := hl w h he
    refine ⟨p, mode, by rwa [waiting_refreshWaiters], ?_⟩
    rw [blocks_congr (readers_refreshWaiters _ page) (writer_refreshWaiters _ page)]
    -- an edge of a wait for another page keeps its lock
    by_cases hp : p = page
    · subst hp
      exact hkept mode hw
    · exact blocks_drop.2 ⟨hb, fun h' => hp h'.1⟩
  · rename_i hm
    rw [if_neg hm]
    obtain ⟨p, mode, hw, hb⟩ := hl w h he
    refine ⟨p, mode, hw, blocks_drop.2 ⟨hb, ?_⟩⟩
    -- no lock was held, so none that blocks is lost
    rintro ⟨rfl, rfl⟩
    obtain ⟨-, held, hheld, -⟩ := hb
    exact hm (by rw [hheld]; rfl)

/-- Nobody waits for a transaction that holds nothing, and it waits for nobody. -/
theorem releaseAll (hl : l.EdgesGenuine) (t : TransactionId) : (l.releaseAll t).EdgesGenuine := by
  intro w h he
  obtain ⟨hwt, hht, he⟩ := edge_releaseAll he
  obtain ⟨page, mode, hw, hb⟩ := hl w h he
  refine ⟨page, mode, ?_, blocks_releaseAll.2 ⟨hb, fun h' => hht h'.2⟩⟩
  rw [get?_waiting_releaseAll, if_neg hwt, hw]

end EdgesGenuine

theorem get?_waiting_acquire (l : LockTable) (r : LockRequest) (w : TransactionId) :
    (l.acquire r).2.waiting.get? w =
      if w = r.tid then if (l.acquire r).1 = .waits then some (r.page, r.mode) else none
      else l.waiting.get? w := by
  unfold acquire
  split
  · simp [stopWaiting, OrdMap.get?_erase]
  · split
    · simp [stopWaiting, OrdMap.get?_erase]
    · simp [wait, OrdMap.get?_insert]

/-- A refused request finds its own transaction at the end of a way along the graph. -/
theorem exists_path_of_deadlock (h : (l.acquire r).1 = .deadlock) :
    ∃ h, l.Blocks r h ∧ ReflTransGen l.waitsFor.Edge h r.tid := by
  unfold acquire at h
  split at h
  · contradiction
  · split at h
    · rename_i hd
      obtain ⟨h, hmem, hpath⟩ := WaitsFor.exists_path_of_wouldDeadlock hd
      exact ⟨h, blocks_iff_mem_conflicting.2 hmem, hpath⟩
    · contradiction

theorem acquire_deadlock (h : (l.acquire r).1 = .deadlock) :
    (l.acquire r).2 = { l.stopWaiting r.tid with deadlocks := l.deadlocks + 1 } := by
  unfold acquire at h ⊢
  split at h
  · contradiction
  · rename_i hg
    rw [if_neg hg]
    split at h
    · rename_i hd
      rw [if_pos hd]
    · contradiction

end LockTable

namespace LockSession

/-- `w` is blocked on a request that `h` keeps from being granted. -/
def BlockedOn (s : LockSession) (w h : TransactionId) : Prop :=
  ∃ r ∈ requests s, r.tid = w ∧ s.state.waiting.get? w = some (r.page, r.mode) ∧ s.state.Blocks r h

/-- What is recorded as waited for is the request of a call that has not ended. -/
def WaitsPending (s : LockSession) : Prop :=
  ∀ w page mode, s.state.waiting.get? w = some (page, mode) → ⟨w, page, mode⟩ ∈ requests s

variable {s : LockSession}

theorem waitsPending_perform (a : LockAction) (hs : WaitsPending s) :
    WaitsPending (perform s a) := by
  intro w page mode hw
  rcases perform_cases s a with ⟨r, hp⟩ | ⟨hreq, h | ⟨r, h⟩ | ⟨t, q, h⟩ | ⟨t, h⟩⟩
  · rw [hp.state, LockTable.get?_waiting_acquire] at hw
    -- a transaction's one entry is always of its latest pass
    by_cases hwr : w = r.tid
    · by_cases hwait : (s.state.acquire r).1 = .waits
      · obtain ⟨rfl, rfl⟩ : r.page = page ∧ r.mode = mode := by simpa [hwr, hwait] using hw
        rw [hwr]
        exact hp.joins hwait
      · simp [hwr, hwait] at hw
    · rw [if_neg hwr] at hw
      exact hp.keeps _ (hs w page mode hw) (.inl hwr)
  · rw [h] at hw
    rw [hreq]
    exact hs w page mode hw
  · rw [h, LockTable.waiting_tryAcquire] at hw
    rw [hreq]
    exact hs w page mode hw
  · rw [h, LockTable.waiting_release] at hw
    rw [hreq]
    exact hs w page mode hw
  · rw [h, LockTable.get?_waiting_releaseAll] at hw
    rw [hreq]
    split at hw
    · contradiction
    · exact hs w page mode hw

theorem edgesGenuine_perform (a : LockAction) (hs : s.state.EdgesGenuine) :
    (perform s a).state.EdgesGenuine := by
  rcases perform_cases s a with ⟨r, hp⟩ | ⟨-, h | ⟨r, h⟩ | ⟨t, page, h⟩ | ⟨t, h⟩⟩
  · rw [hp.state]
    exact hs.acquire r
  · rwa [h]
  · rw [h]
    exact hs.tryAcquire r
  · rw [h]
    exact hs.release t page
  · rw [h]
    exact hs.releaseAll t

theorem waitsPending_run (as : List LockAction) : WaitsPending (run as) :=
  run_induction (P := WaitsPending) nofun (fun _ a => waitsPending_perform a) as

theorem edgesGenuine_run (as : List LockAction) : (run as).state.EdgesGenuine :=
  run_induction (P := fun s => s.state.EdgesGenuine) LockTable.edgesGenuine_empty
    (fun _ a => edgesGenuine_perform a) as

theorem blockedOn_of_edge {as : List LockAction} {w h : TransactionId}
    (he : (run as).state.waitsFor.Edge w h) : BlockedOn (run as) w h := by
  obtain ⟨page, mode, hw, hb⟩ := edgesGenuine_run as w h he
  exact ⟨⟨w, page, mode⟩, waitsPending_run as w page mode hw, rfl, hw, hb⟩

/-- However the callers' steps interleave, every edge is a wait that really is blocked, so a request
is refused only when it would close a cycle of blocked transactions; the refusal takes no lock
from anybody and ends the waiting of its transaction. -/
theorem refused_only_in_cycle (as : List LockAction) :
    (∀ w h, (run as).state.waitsFor.Edge w h → BlockedOn (run as) w h) ∧
      ∀ r k, (run as).state.pass r = (.ended (.error (.transactionAborted r.tid)), k) →
        (∃ h path, (run as).state.Blocks r h ∧
          (h :: path ++ [r.tid]).IsChain (BlockedOn (run as)) ∧ r.tid ∉ h :: path) ∧
        (k.readers = (run as).state.readers ∧ k.writer = (run as).state.writer ∧
          k.owned = (run as).state.owned) ∧
        k.waiting.get? r.tid = none ∧ ∀ h, ¬k.waitsFor.Edge r.tid h := by
  refine ⟨fun w h => blockedOn_of_edge, ?_⟩
  intro r k hpass
  have hattempt : (run as).state.acquire r = (.deadlock, k) := by
    rcases ha : (run as).state.acquire r with ⟨o, k'⟩
    cases o <;> simp_all [LockTable.pass]
  have hdead : ((run as).state.acquire r).1 = .deadlock := by rw [hattempt]
  have hk := LockTable.acquire_deadlock hdead
  rw [hattempt] at hk
  simp only at hk
  refine ⟨?_, ?_, ?_, ?_⟩
  · obtain ⟨h, hblocks, hpath⟩ := LockTable.exists_path_of_deadlock hdead
    obtain ⟨path, hchain, hnot⟩ := WaitsFor.exists_chain_of_reflTransGen hpath hblocks.1
    exact ⟨h, path, hblocks, hchain.imp fun _ _ => blockedOn_of_edge, hnot⟩
  · rw [hk]
    exact ⟨rfl, rfl, rfl⟩
  · rw [hk]
    simp [LockTable.stopWaiting, OrdMap.get?_erase]
  · intro h he
    rw [hk] at he
    exact (WaitsFor.edge_clear.1 he).1 rfl

/-- Each of two transactions writes a page, and the first one waits for the other's. -/
def crossedWriters : List LockAction :=
  [.acquire 0 ⟨⟨1⟩, ⟨⟨1⟩, 0⟩, .exclusive⟩, .acquire 1 ⟨⟨2⟩, ⟨⟨1⟩, 1⟩, .exclusive⟩,
    .acquire 2 ⟨⟨1⟩, ⟨⟨1⟩, 1⟩, .exclusive⟩]

theorem crossed_writer_refused :
    ∃ k, (run crossedWriters).state.pass ⟨⟨2⟩, ⟨⟨1⟩, 0⟩, .exclusive⟩ =
        (.ended (.error (.transactionAborted ⟨2⟩)), k) ∧
      (∃ h path, (h :: path ++ [(⟨2⟩ : TransactionId)]).IsChain (BlockedOn (run crossedWriters))) ∧
      k.waiting.get? ⟨2⟩ = none := by
  have hrefused : (run crossedWriters).state.pass ⟨⟨2⟩, ⟨⟨1⟩, 0⟩, .exclusive⟩ =
      (.ended (.error (.transactionAborted ⟨2⟩)),
        ((run crossedWriters).state.pass ⟨⟨2⟩, ⟨⟨1⟩, 0⟩, .exclusive⟩).2) := by rfl
  obtain ⟨⟨h, path, -, hchain, -⟩, -, hwaiting, -⟩ :=
    (refused_only_in_cycle crossedWriters).2 ⟨⟨2⟩, ⟨⟨1⟩, 0⟩, .exclusive⟩ _ hrefused
  exact ⟨_, hrefused, ⟨h, path, hchain⟩, hwaiting⟩

end LockSession

end PagePool
