import PagePool.Lock.Table

namespace PagePool.LockTable

variable {l : LockTable} {r : LockRequest} {t u h : TransactionId} {page q : PageId}

theorem isWriter_iff : l.isWriter t page = true ↔ l.writer.get? page = some t := by
  simp [isWriter]

theorem mem_holders {e : TransactionId × LockMode} :
    e ∈ l.holders page ↔
      l.writer.get? page = some e.1 ∧ e.2 = .exclusive ∨
        e.1 ∈ l.readersOf page ∧ e.2 = .shared := by
  obtain ⟨t, mode⟩ := e
  simp only [holders, List.mem_append, List.mem_map, Option.mem_toList, OrdSet.mem_toList,
    Prod.mk.injEq]
  constructor
  · rintro (⟨u, hu, rfl, rfl⟩ | ⟨u, hu, rfl, rfl⟩)
    · exact .inl ⟨hu, rfl⟩
    · exact .inr ⟨hu, rfl⟩
  · rintro (⟨hu, rfl⟩ | ⟨hu, rfl⟩)
    · exact .inl ⟨t, hu, rfl, rfl⟩
    · exact .inr ⟨t, hu, rfl, rfl⟩

/-- A request is in conflict with the other writer, and with the other readers if it is exclusive. -/
theorem mem_conflicting :
    h ∈ l.conflicting r ↔
      h ≠ r.tid ∧ (l.writer.get? r.page = some h ∨ r.mode = .exclusive ∧ h ∈ l.readersOf r.page) := by
  simp only [conflicting, OrdSet.mem_ofList, List.mem_map, List.mem_filter, mem_holders,
    Bool.and_eq_true, bne_iff_ne, Bool.not_eq_eq_eq_not, Bool.not_true]
  constructor
  · rintro ⟨⟨u, mode⟩, ⟨hheld, hne, hmode⟩, rfl⟩
    refine ⟨hne, hheld.imp And.left ?_⟩
    rintro ⟨hu, rfl⟩
    exact ⟨by cases hm : r.mode <;> simp_all [LockMode.isCompatible], hu⟩
  · rintro ⟨hne, hw | ⟨hm, hu⟩⟩
    · exact ⟨(h, .exclusive), ⟨.inl ⟨hw, rfl⟩, hne, by cases r.mode <;> rfl⟩, rfl⟩
    · exact ⟨(h, .shared), ⟨.inr ⟨hu, rfl⟩, hne, by rw [hm]; rfl⟩, rfl⟩

theorem isGrantable_iff :
    l.isGrantable r = true ↔
      l.writer.get? r.page = some r.tid ∨ ∀ h, h ∉ l.conflicting r := by
  rw [isGrantable, Bool.or_eq_true, isWriter_iff, OrdSet.isEmpty_iff]

/-- Who reads or writes a page besides the requester of a grantable lock. -/
theorem not_writer_of_isGrantable (hg : l.isGrantable r = true) (hne : h ≠ r.tid) :
    l.writer.get? r.page ≠ some h := by
  intro hw
  rcases isGrantable_iff.1 hg with hr | hc
  · exact hne (Option.some.inj (hw.symm.trans hr))
  · exact hc h (mem_conflicting.2 ⟨hne, .inl hw⟩)

theorem modeOf_eq_exclusive : l.modeOf t page = some .exclusive ↔ l.writer.get? page = some t := by
  simp only [modeOf, isWriter_iff]
  split <;> simp_all

theorem isSome_modeOf :
    (l.modeOf t page).isSome = true ↔ l.writer.get? page = some t ∨ t ∈ l.readersOf page := by
  simp only [modeOf, isWriter_iff, OrdSet.mem_iff]
  split <;> simp_all

/-! What a grant and a drop do to the writer, the readers and the owned pages. -/

theorem grant_of_isWriter (hw : l.isWriter r.tid r.page = true) : l.grant r = l := by
  simp [grant, hw]

theorem get?_writer_grant (l : LockTable) (r : LockRequest) (q : PageId) :
    (l.grant r).writer.get? q =
      if q = r.page ∧ r.mode = .exclusive then some r.tid else l.writer.get? q := by
  by_cases hw : l.isWriter r.tid r.page = true
  · rw [grant_of_isWriter hw]
    split
    · rename_i h
      rw [h.1]
      exact isWriter_iff.1 hw
    · rfl
  · cases hm : r.mode <;> simp [grant, hw, hm, OrdMap.get?_insert]

theorem get?_readers_grant (hw : l.isWriter r.tid r.page ≠ true) (q : PageId) :
    (l.grant r).readers.get? q =
      if q = r.page then
        if r.mode = .exclusive then none else some ((l.readersOf r.page).insert r.tid)
      else l.readers.get? q := by
  cases hm : r.mode <;> simp [grant, hw, hm, OrdMap.get?_insert, OrdMap.get?_erase]

theorem get?_owned_grant (hw : l.isWriter r.tid r.page ≠ true) (t : TransactionId) :
    (l.grant r).owned.get? t =
      if t = r.tid then some ((l.ownedBy r.tid).insert r.page) else l.owned.get? t := by
  cases hm : r.mode <;> simp [grant, hw, hm, OrdMap.get?_insert]

theorem mem_readersOf_grant (hw : l.isWriter r.tid r.page ≠ true) :
    u ∈ (l.grant r).readersOf q ↔
      u ∈ l.readersOf q ∧ (q = r.page → r.mode = .shared) ∨
        q = r.page ∧ r.mode = .shared ∧ u = r.tid := by
  rw [readersOf, get?_readers_grant hw]
  by_cases hq : q = r.page
  · subst hq
    cases hm : r.mode
    · simp [OrdSet.mem_insert, or_comm]
    · simp
  · simp [hq, readersOf]

theorem mem_ownedBy_grant (hw : l.isWriter r.tid r.page ≠ true) :
    q ∈ (l.grant r).ownedBy u ↔ q ∈ l.ownedBy u ∨ q = r.page ∧ u = r.tid := by
  rw [ownedBy, get?_owned_grant hw]
  by_cases hu : u = r.tid
  · subst hu
    simp [OrdSet.mem_insert, or_comm]
  · simp [hu, ownedBy]

@[simp] theorem waiting_grant (l : LockTable) (r : LockRequest) :
    (l.grant r).waiting = l.waiting := by
  unfold grant
  split
  · rfl
  · split <;> rfl

@[simp] theorem waitsFor_grant (l : LockTable) (r : LockRequest) :
    (l.grant r).waitsFor = l.waitsFor := by
  unfold grant
  split
  · rfl
  · split <;> rfl

theorem get?_writer_drop (l : LockTable) (t : TransactionId) (page q : PageId) :
    (l.drop t page).writer.get? q =
      if q = page ∧ l.writer.get? page = some t then none else l.writer.get? q := by
  by_cases hw : l.isWriter t page = true
  · have hw' := isWriter_iff.1 hw
    simp [drop, hw, hw', OrdMap.get?_erase]
  · have hw' := mt isWriter_iff.2 hw
    simp [drop, hw, hw']

theorem get?_readers_drop (l : LockTable) (t : TransactionId) (page q : PageId) :
    (l.drop t page).readers.get? q =
      if q = page then
        if ((l.readersOf page).erase t).isEmpty then none else some ((l.readersOf page).erase t)
      else l.readers.get? q := by
  simp only [drop, updateReaders]
  split <;> simp [OrdMap.get?_insert, OrdMap.get?_erase]

theorem get?_owned_drop (l : LockTable) (t u : TransactionId) (page : PageId) :
    (l.drop t page).owned.get? u =
      if u = t then
        if ((l.ownedBy t).erase page).isEmpty then none else some ((l.ownedBy t).erase page)
      else l.owned.get? u := by
  simp only [drop, updateOwned]
  split <;> simp [OrdMap.get?_insert, OrdMap.get?_erase]

theorem mem_readersOf_drop :
    u ∈ (l.drop t page).readersOf q ↔ u ∈ l.readersOf q ∧ ¬(q = page ∧ u = t) := by
  by_cases hq : q = page
  · subst hq
    have hmem : u ∈ (l.readersOf q).erase t ↔ u ≠ t ∧ u ∈ l.readersOf q := OrdSet.mem_erase
    by_cases he : ((l.readersOf q).erase t).isEmpty = true
    · have hnone := OrdSet.isEmpty_iff.1 he u
      rw [readersOf, get?_readers_drop]
      simp only [he, if_true, Option.getD_none, OrdSet.not_mem_empty, false_iff]
      rw [hmem] at hnone
      grind
    · rw [readersOf, get?_readers_drop]
      simp only [he, if_true, Bool.false_eq_true, if_false, Option.getD_some, hmem]
      grind
  · simp [readersOf, get?_readers_drop, hq]

theorem mem_ownedBy_drop :
    q ∈ (l.drop t page).ownedBy u ↔ q ∈ l.ownedBy u ∧ ¬(q = page ∧ u = t) := by
  by_cases hu : u = t
  · subst hu
    have hmem : q ∈ (l.ownedBy u).erase page ↔ q ≠ page ∧ q ∈ l.ownedBy u := OrdSet.mem_erase
    by_cases he : ((l.ownedBy u).erase page).isEmpty = true
    · have hnone := OrdSet.isEmpty_iff.1 he q
      rw [ownedBy, get?_owned_drop]
      simp only [he, if_true, Option.getD_none, OrdSet.not_mem_empty, false_iff]
      rw [hmem] at hnone
      grind
    · rw [ownedBy, get?_owned_drop]
      simp only [he, if_true, Bool.false_eq_true, if_false, Option.getD_some, hmem]
      grind
  · simp [ownedBy, get?_owned_drop, hu]

/-! The waiters' edges are the only thing that a refresh changes. -/

theorem refreshWaiters_eq (l : LockTable) (page : PageId) :
    ∃ g, l.refreshWaiters page = { l with waitsFor := g } := by
  unfold refreshWaiters
  generalize l.waiting.entries.filter _ = ws
  suffices h : ∀ (ws : List (TransactionId × PageId × LockMode)) (k : LockTable),
      (∃ g, k = { l with waitsFor := g }) →
        ∃ g, ws.foldl (fun l w => l.refreshWaiter w.1 w.2.1 w.2.2) k = { l with waitsFor := g } from
    h ws l ⟨_, rfl⟩
  intro ws
  induction ws with
  | nil => exact fun k hk => hk
  | cons w ws ih =>
    rintro _ ⟨g, rfl⟩
    exact ih _ ⟨_, rfl⟩

@[simp] theorem readers_refreshWaiters (l : LockTable) (page : PageId) :
    (l.refreshWaiters page).readers = l.readers := by
  obtain ⟨g, hg⟩ := refreshWaiters_eq l page
  rw [hg]

@[simp] theorem writer_refreshWaiters (l : LockTable) (page : PageId) :
    (l.refreshWaiters page).writer = l.writer := by
  obtain ⟨g, hg⟩ := refreshWaiters_eq l page
  rw [hg]

@[simp] theorem owned_refreshWaiters (l : LockTable) (page : PageId) :
    (l.refreshWaiters page).owned = l.owned := by
  obtain ⟨g, hg⟩ := refreshWaiters_eq l page
  rw [hg]

@[simp] theorem waiting_refreshWaiters (l : LockTable) (page : PageId) :
    (l.refreshWaiters page).waiting = l.waiting := by
  obtain ⟨g, hg⟩ := refreshWaiters_eq l page
  rw [hg]

end PagePool.LockTable
