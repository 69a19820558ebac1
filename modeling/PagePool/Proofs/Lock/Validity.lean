import Mathlib.Tactic.ByContra
import PagePool.Proofs.Lock.Holdings

namespace PagePool.LockTable

/-- The three indexes of held locks agree: a written page has no readers, no stored set is empty,
and a transaction owns exactly the pages that it writes or reads. -/
structure Valid (l : LockTable) : Prop where
  unread_of_writer : ∀ {page t}, l.writer.get? page = some t → l.readers.get? page = none
  readers_nonempty : ∀ {page s}, l.readers.get? page = some s → s.isEmpty = false
  owned_nonempty : ∀ {t s}, l.owned.get? t = some s → s.isEmpty = false
  mem_ownedBy : ∀ {t page},
    page ∈ l.ownedBy t ↔ l.writer.get? page = some t ∨ t ∈ l.readersOf page

variable {l : LockTable} {r : LockRequest} {t u h : TransactionId} {page q : PageId}

theorem valid_empty : empty.Valid where
  unread_of_writer := nofun
  readers_nonempty := nofun
  owned_nonempty := nofun
  mem_ownedBy := by simp [ownedBy, readersOf, empty]

theorem not_isEmpty_insert {κ : Type} [Key κ] [DecidableEq κ] (s : OrdSet κ) (k : κ) :
    (s.insert k).isEmpty = false := by
  rw [← Bool.not_eq_true, OrdSet.isEmpty_iff]
  exact fun h => h k (OrdSet.mem_insert.2 (.inl rfl))

namespace Valid

theorem not_mem_readersOf (hv : l.Valid) (hw : l.writer.get? page = some t) :
    u ∉ l.readersOf page := by
  simp [readersOf, hv.unread_of_writer hw]

theorem holds_iff (hv : l.Valid) : l.holds t page = true ↔ (l.modeOf t page).isSome = true := by
  rw [isSome_modeOf, ← hv.mem_ownedBy]
  rfl

/-- The only holder of a page that somebody writes is its writer. -/
theorem eq_of_writer (hv : l.Valid) (hw : l.writer.get? page = some t)
    (hu : l.holds u page = true) : u = t := by
  rcases hv.mem_ownedBy.1 hu with h | h
  · exact Option.some.inj (h.symm.trans hw)
  · exact absurd h (hv.not_mem_readersOf hw)

/-- Two transactions hold one page only if both of them read it. -/
theorem shared_of_two_holders {m n : LockMode} (hv : l.Valid) (hne : t ≠ u)
    (ht : l.modeOf t page = some m) (hu : l.modeOf u page = some n) :
    m = .shared ∧ n = .shared := by
  have hold {v : TransactionId} {k : LockMode} (h : l.modeOf v page = some k) :
      l.holds v page = true := hv.holds_iff.2 (by rw [h]; rfl)
  constructor
  · cases m with
    | shared => rfl
    | exclusive => exact absurd (hv.eq_of_writer (modeOf_eq_exclusive.1 ht) (hold hu)).symm hne
  · cases n with
    | shared => rfl
    | exclusive => exact absurd (hv.eq_of_writer (modeOf_eq_exclusive.1 hu) (hold ht)) hne

/-- A grant adds the requester's lock, and turns the lock of a sole reader into an exclusive one. -/
theorem grant (hv : l.Valid) (hg : l.isGrantable r = true) : (l.grant r).Valid := by
  by_cases hw : l.isWriter r.tid r.page = true
  · rwa [grant_of_isWriter hw]
  have hfree : ∀ v, l.writer.get? r.page ≠ some v := by
    intro v hv'
    by_cases hvt : v = r.tid
    · exact hw (isWriter_iff.2 (hvt ▸ hv'))
    · exact not_writer_of_isGrantable hg hvt hv'
  have hsole : r.mode = .exclusive → ∀ v, v ∈ l.readersOf r.page → v = r.tid := by
    intro hm v hv'
    by_contra hvt
    rcases isGrantable_iff.1 hg with hr | hc
    · exact hfree _ hr
    · exact hc v (mem_conflicting.2 ⟨hvt, .inr ⟨hm, hv'⟩⟩)
  -- an exclusive grant moves its page from the readers to the writers, a shared one adds a reader
  constructor
  · intro page v hv'
    rw [get?_writer_grant] at hv'
    rw [get?_readers_grant hw]
    by_cases hp : page = r.page
    · subst hp
      grind
    · grind [hv.unread_of_writer]
  · intro page s hs
    rw [get?_readers_grant hw] at hs
    by_cases hp : page = r.page
    · cases hm : r.mode <;> grind [not_isEmpty_insert]
    · grind [hv.readers_nonempty]
  · intro v s hs
    rw [get?_owned_grant hw] at hs
    grind [not_isEmpty_insert, hv.owned_nonempty]
  · intro v page
    have hown := @hv.mem_ownedBy v page
    rw [mem_ownedBy_grant hw, mem_readersOf_grant hw, get?_writer_grant, hown]
    by_cases hp : page = r.page
    · subst hp
      cases hm : r.mode
      · grind
      · grind
    · simp [hp]

theorem drop (hv : l.Valid) (t : TransactionId) (page : PageId) : (l.drop t page).Valid := by
  constructor
  · intro q v hq
    rw [get?_writer_drop] at hq
    rw [get?_readers_drop]
    by_cases hp : q = page
    · subst hp
      have hw : l.writer.get? q = some v := by grind
      have hnone : ∀ u, u ∉ (l.readersOf q).erase t := fun u hu =>
        hv.not_mem_readersOf hw (OrdSet.mem_erase.1 hu).2
      simp [OrdSet.isEmpty_iff.2 hnone]
    · grind [hv.unread_of_writer]
  · intro q s hs
    rw [get?_readers_drop] at hs
    by_cases hp : q = page
    · grind
    · grind [hv.readers_nonempty]
  · intro v s hs
    rw [get?_owned_drop] at hs
    grind [hv.owned_nonempty]
  · intro v q
    have hown := @hv.mem_ownedBy v q
    rw [mem_ownedBy_drop, mem_readersOf_drop, get?_writer_drop, hown]
    grind

/-- Validity says nothing of who waits. -/
theorem of_indexes {k : LockTable} (hv : l.Valid) (hr : k.readers = l.readers)
    (hw : k.writer = l.writer) (ho : k.owned = l.owned) : k.Valid := by
  have hread (page : PageId) : k.readersOf page = l.readersOf page := by rw [readersOf, hr]; rfl
  have hown (t : TransactionId) : k.ownedBy t = l.ownedBy t := by rw [ownedBy, ho]; rfl
  constructor
  · rw [hw, hr]
    exact hv.unread_of_writer
  · rw [hr]
    exact hv.readers_nonempty
  · rw [ho]
    exact hv.owned_nonempty
  · intro t page
    rw [hown, hw, hread]
    exact hv.mem_ownedBy

theorem refreshWaiters (hv : l.Valid) (page : PageId) : (l.refreshWaiters page).Valid :=
  hv.of_indexes (by simp) (by simp) (by simp)

theorem tryAcquire (hv : l.Valid) (r : LockRequest) : (l.tryAcquire r).2.Valid := by
  unfold LockTable.tryAcquire
  split
  · rename_i hg
    exact hv.grant hg
  · exact hv

theorem acquire (hv : l.Valid) (r : LockRequest) : (l.acquire r).2.Valid := by
  unfold LockTable.acquire
  split
  · rename_i hg
    exact (hv.grant hg).of_indexes rfl rfl rfl
  · split
    · exact hv.of_indexes rfl rfl rfl
    · exact hv.of_indexes rfl rfl rfl

theorem release (hv : l.Valid) (t : TransactionId) (page : PageId) : (l.release t page).Valid := by
  unfold LockTable.release
  split
  · exact (hv.drop t page).refreshWaiters page
  · exact hv.drop t page

theorem foldl_drop (hv : l.Valid) (t : TransactionId) (pages : List PageId) :
    (pages.foldl (fun l page => l.drop t page) l).Valid := by
  induction pages generalizing l with
  | nil => exact hv
  | cons page pages ih => exact ih (hv.drop t page)

theorem foldl_refreshWaiters (hv : l.Valid) (pages : List PageId) :
    (pages.foldl LockTable.refreshWaiters l).Valid := by
  induction pages generalizing l with
  | nil => exact hv
  | cons page pages ih => exact ih (hv.refreshWaiters page)

theorem releaseAll (hv : l.Valid) (t : TransactionId) : (l.releaseAll t).Valid := by
  unfold LockTable.releaseAll
  apply foldl_refreshWaiters
  exact (hv.foldl_drop t (l.pagesLocked t)).of_indexes rfl rfl rfl

end Valid

end PagePool.LockTable
