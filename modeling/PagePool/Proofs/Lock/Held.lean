import PagePool.Proofs.Lock.WaitEdges

namespace PagePool

def LockMode.stronger : LockMode → LockMode → LockMode
  | .exclusive, _ => .exclusive
  | .shared, mode => mode

/-- Which transaction holds which page, and how. -/
abbrev Held := TransactionId → PageId → Option LockMode

namespace Held

/-- Whoever else holds the page holds it in a mode that goes with the requested one. -/
def Permits (held : Held) (r : LockRequest) : Prop :=
  ∀ u mode, u ≠ r.tid → held u r.page = some mode → r.mode.isCompatible mode = true

def grant (held : Held) (r : LockRequest) : Held := fun t page =>
  if t = r.tid ∧ page = r.page then
    some (((held t page).map fun mode => mode.stronger r.mode).getD r.mode)
  else held t page

def release (held : Held) (t : TransactionId) (page : PageId) : Held := fun u q =>
  if u = t ∧ q = page then none else held u q

def releaseAll (held : Held) (t : TransactionId) : Held := fun u q =>
  if u = t then none else held u q

variable {held : Held} {r : LockRequest} {t u : TransactionId} {page q : PageId}

theorem grant_of_exclusive (h : held r.tid r.page = some .exclusive) : held.grant r = held := by
  funext t page
  unfold grant
  split
  · rename_i heq
    rw [heq.1, heq.2, h]
    rfl
  · rfl

/-- A lock that is not exclusive yet becomes what is asked for. -/
theorem grant_of_not_exclusive (h : held r.tid r.page ≠ some .exclusive) :
    held.grant r t page = if t = r.tid ∧ page = r.page then some r.mode else held t page := by
  unfold grant
  split
  · rename_i heq
    rw [heq.1, heq.2]
    cases hm : held r.tid r.page with
    | none => rfl
    | some mode =>
      cases mode with
      | shared => rfl
      | exclusive => exact absurd hm h
  · rfl

/-- The reader that is alone on its page may write it. -/
theorem permits_of_sole (h : ∀ u, (held u r.page).isSome = true → u = r.tid) : held.Permits r := by
  intro u mode hne hu
  exact absurd (h u (by rw [hu]; rfl)) hne

end Held

namespace LockTable

/-- The three indexes of a table tell who holds what: a written page has its writer in one of them,
a read page its readers in another, and the third lists both by transaction. -/
structure Shows (l : LockTable) (held : Held) : Prop where
  writer : ∀ {t page}, l.writer.get? page = some t ↔ held t page = some .exclusive
  reader : ∀ {t page}, t ∈ l.readersOf page ↔ held t page = some .shared
  owned : ∀ {t page}, page ∈ l.ownedBy t ↔ (held t page).isSome = true

variable {l k : LockTable} {held : Held} {r : LockRequest} {t u : TransactionId} {page q : PageId}

theorem Valid.shows (hv : l.Valid) : l.Shows l.modeOf where
  writer := modeOf_eq_exclusive.symm
  reader {t page} := by
    simp only [modeOf, isWriter_iff, ← OrdSet.mem_iff]
    by_cases hw : l.writer.get? page = some t
    · simp [hw, hv.not_mem_readersOf hw]
    · simp [hw]
  owned := hv.mem_ownedBy.trans isSome_modeOf.symm

namespace Shows

theorem modeOf_eq (h : l.Shows held) (t : TransactionId) (page : PageId) :
    l.modeOf t page = held t page := by
  simp only [modeOf, isWriter_iff, ← OrdSet.mem_iff, h.writer, h.reader]
  split
  · rename_i hw
    exact hw.symm
  · rename_i hw
    split
    · rename_i hr
      exact hr.symm
    · rename_i hr
      cases hm : held t page with
      | none => rfl
      | some mode => cases mode <;> contradiction

theorem holds_eq (h : l.Shows held) (t : TransactionId) (page : PageId) :
    l.holds t page = (held t page).isSome :=
  Bool.eq_iff_iff.2 h.owned

theorem mem_pagesLocked (h : l.Shows held) :
    page ∈ l.pagesLocked t ↔ (held t page).isSome = true :=
  OrdSet.mem_toList.trans h.owned

/-- What a table shows does not depend on who waits. -/
theorem of_indexes (h : l.Shows held) (hr : k.readers = l.readers) (hw : k.writer = l.writer)
    (ho : k.owned = l.owned) : k.Shows held where
  writer := by rw [hw]; exact h.writer
  reader {t page} := by
    have hread : k.readersOf page = l.readersOf page := by rw [readersOf, hr]; rfl
    rw [hread]
    exact h.reader
  owned {t page} := by
    have hown : k.ownedBy t = l.ownedBy t := by rw [ownedBy, ho]; rfl
    rw [hown]
    exact h.owned

theorem isGrantable_iff (hv : l.Valid) (h : l.Shows held) :
    l.isGrantable r = true ↔ held.Permits r := by
  have hblocks (u : TransactionId) :
      u ∉ l.conflicting r ↔ ∀ mode, u ≠ r.tid → held u r.page = some mode →
        r.mode.isCompatible mode = true := by
    rw [← blocks_iff_mem_conflicting, Blocks, h.modeOf_eq]
    grind
  rw [LockTable.isGrantable_iff]
  constructor
  · rintro (hw | hfree)
    · -- the writer has its page for itself
      intro u mode hne hu
      have hheld : l.holds u r.page = true := by rw [h.holds_eq, hu]; rfl
      exact absurd (hv.eq_of_writer hw hheld) hne
    · exact fun u => (hblocks u).1 (hfree u)
  · exact fun hp => .inr fun u => (hblocks u).2 (hp u)

theorem grant (h : l.Shows held) (hp : held.Permits r) : (l.grant r).Shows (held.grant r) := by
  by_cases hw : l.isWriter r.tid r.page = true
  · rwa [grant_of_isWriter hw, Held.grant_of_exclusive (h.writer.1 (isWriter_iff.1 hw))]
  have hnot : held r.tid r.page ≠ some .exclusive := fun hx => hw (isWriter_iff.2 (h.writer.2 hx))
  -- what anybody else holds there is shared, and then only a shared lock was asked for
  have hother {u : TransactionId} {mode : LockMode} (hne : u ≠ r.tid)
      (hu : held u r.page = some mode) : r.mode = .shared ∧ mode = .shared :=
    LockMode.isCompatible_iff.1 (hp u mode hne hu)
  constructor
  · intro t page
    rw [get?_writer_grant, Held.grant_of_not_exclusive hnot]
    have := @h.writer t page
    grind
  · intro t page
    rw [mem_readersOf_grant hw, Held.grant_of_not_exclusive hnot, h.reader]
    grind
  · intro t page
    rw [mem_ownedBy_grant hw, Held.grant_of_not_exclusive hnot, h.owned]
    grind

theorem drop (h : l.Shows held) (t : TransactionId) (page : PageId) :
    (l.drop t page).Shows (held.release t page) := by
  constructor
  · intro u q
    rw [get?_writer_drop, Held.release]
    have := @h.writer u q
    grind
  · intro u q
    rw [mem_readersOf_drop, Held.release, h.reader]
    grind
  · intro u q
    rw [mem_ownedBy_drop, Held.release, h.owned]
    grind

theorem refreshWaiters (h : l.Shows held) (page : PageId) : (l.refreshWaiters page).Shows held :=
  h.of_indexes (by simp) (by simp) (by simp)

theorem release (h : l.Shows held) (t : TransactionId) (page : PageId) :
    (l.release t page).Shows (held.release t page) := by
  unfold LockTable.release
  split
  · exact (h.drop t page).refreshWaiters page
  · exact h.drop t page

theorem foldl_drop (h : l.Shows held) (t : TransactionId) (pages : List PageId) :
    (pages.foldl (fun l page => l.drop t page) l).Shows
      fun u q => if u = t ∧ q ∈ pages then none else held u q := by
  induction pages generalizing l held with
  | nil => simpa using h
  | cons page pages ih =>
    have hsplit : (fun u q => if u = t ∧ q ∈ page :: pages then none else held u q) =
        fun u q => if u = t ∧ q ∈ pages then none else held.release t page u q := by
      funext u q
      simp only [Held.release, List.mem_cons]
      grind
    rw [hsplit]
    exact ih (h.drop t page)

theorem foldl_refreshWaiters (h : l.Shows held) (pages : List PageId) :
    (pages.foldl LockTable.refreshWaiters l).Shows held := by
  induction pages generalizing l with
  | nil => exact h
  | cons page pages ih => exact ih (h.refreshWaiters page)

/-- The pages that the table lists for a transaction are all that it holds. -/
theorem releaseAll (h : l.Shows held) (t : TransactionId) :
    (l.releaseAll t).Shows (held.releaseAll t) := by
  have hall : held.releaseAll t = fun u q => if u = t ∧ q ∈ l.pagesLocked t then none
      else held u q := by
    funext u q
    by_cases hu : u = t
    · subst hu
      cases hm : held u q <;> simp [Held.releaseAll, h.mem_pagesLocked, hm]
    · simp [Held.releaseAll, hu]
  unfold LockTable.releaseAll
  apply foldl_refreshWaiters
  rw [hall]
  exact (h.foldl_drop t (l.pagesLocked t)).of_indexes rfl rfl rfl

theorem tryAcquire (hv : l.Valid) (h : l.Shows held) (hp : held.Permits r) :
    (l.tryAcquire r).1 = true ∧ (l.tryAcquire r).2.Shows (held.grant r) := by
  rw [LockTable.tryAcquire, if_pos ((isGrantable_iff hv h).2 hp)]
  exact ⟨rfl, h.grant hp⟩

theorem tryAcquire_refused (hv : l.Valid) (h : l.Shows held) (hp : ¬held.Permits r) :
    l.tryAcquire r = (false, l) := by
  rw [LockTable.tryAcquire, if_neg (mt (isGrantable_iff hv h).1 hp)]

theorem pass (hv : l.Valid) (h : l.Shows held) (hp : held.Permits r) :
    (l.pass r).1 = .ended (.ok ()) ∧ (l.pass r).2.Shows (held.grant r) := by
  rw [LockTable.pass, acquire, if_pos ((isGrantable_iff hv h).2 hp)]
  exact ⟨rfl, (h.grant hp).of_indexes rfl rfl rfl⟩

/-- A request that is not granted waits or is refused. Neither moves a lock. -/
theorem pass_refused (hv : l.Valid) (h : l.Shows held) (hp : ¬held.Permits r) :
    (l.pass r).1 ≠ .ended (.ok ()) ∧ (l.pass r).2.Shows held := by
  rw [LockTable.pass, acquire, if_neg (mt (isGrantable_iff hv h).1 hp)]
  by_cases hd : l.waitsFor.wouldDeadlock r.tid (l.conflicting r) = true
  · rw [if_pos hd]
    refine ⟨fun hended => ?_, h.of_indexes rfl rfl rfl⟩
    cases hended
  · rw [if_neg hd]
    refine ⟨fun hended => ?_, h.of_indexes rfl rfl rfl⟩
    cases hended

end Shows

/-- A transaction that nobody waits for, that waits for nobody, and whose wait is not recorded. -/
structure Forgets (l : LockTable) (t : TransactionId) : Prop where
  waiting : l.waiting.contains t = false
  waiter : l.waitsFor.waitsOn? t = none
  holder : ∀ {w hs}, l.waitsFor.waitsOn? w = some hs → t ∉ hs

theorem waitsOn?_foldl_refreshWaiter {ws : List (TransactionId × PageId × LockMode)}
    (h : ∀ w ∈ ws, w.1 ≠ t) :
    (ws.foldl (fun l w => l.refreshWaiter w.1 w.2.1 w.2.2) l).waitsFor.waitsOn? t =
      l.waitsFor.waitsOn? t := by
  induction ws generalizing l with
  | nil => rfl
  | cons w ws ih =>
    rw [List.foldl_cons, ih fun v hv => h v (List.mem_cons_of_mem _ hv)]
    have hne : t ≠ w.1 := (h w List.mem_cons_self).symm
    simp [refreshWaiter, WaitsFor.waitsOn?_setWaits, hne]

/-- A refresh only looks at recorded waits. -/
theorem waitsOn?_refreshWaiters (h : l.waiting.get? t = none) :
    (l.refreshWaiters page).waitsFor.waitsOn? t = l.waitsFor.waitsOn? t := by
  apply waitsOn?_foldl_refreshWaiter
  rintro w hw rfl
  have hentry : l.waiting.get? w.1 = some w.2 :=
    OrdMap.get?_eq_some_iff.2 (List.mem_filter.1 hw).1
  rw [h] at hentry
  contradiction

theorem waitsOn?_foldl_refreshWaiters {pages : List PageId} (h : l.waiting.get? t = none) :
    (pages.foldl refreshWaiters l).waitsFor.waitsOn? t = l.waitsFor.waitsOn? t := by
  induction pages generalizing l with
  | nil => rfl
  | cons page pages ih =>
    rw [List.foldl_cons, ih (by rwa [waiting_refreshWaiters]), waitsOn?_refreshWaiters h]

theorem forgets_releaseAll (l : LockTable) (t : TransactionId) : (l.releaseAll t).Forgets t where
  waiting := by simp [OrdMap.contains, get?_waiting_releaseAll]
  waiter := by
    unfold releaseAll
    rw [waitsOn?_foldl_refreshWaiters (by simp [OrdMap.get?_erase])]
    simp [WaitsFor.waitsOn?_remove]
  holder hw hmem := (edge_releaseAll ⟨_, hw, hmem⟩).2.1 rfl

end LockTable

namespace LockSession

/-- However the callers' steps interleave, the table is a map from transactions and pages to modes:
every question is answered from it, a request is granted just if it permits it, and each operation
changes it in the one place that it names. -/
theorem meets_specification (as : List LockAction) :
    ∃ held, (run as).state.Shows held ∧
      (∀ t page,
        (run as).state.modeOf t page = held t page ∧
        (run as).state.holds t page = (held t page).isSome ∧
        (page ∈ (run as).state.pagesLocked t ↔ (held t page).isSome = true)) ∧
      (∀ t, ((run as).state.pagesLocked t).Pairwise fun p q => Key.rank p < Key.rank q) ∧
      (∀ r, held.Permits r →
        ((run as).state.tryAcquire r).1 = true ∧
        ((run as).state.tryAcquire r).2.Shows (held.grant r) ∧
        ((run as).state.pass r).1 = .ended (.ok ()) ∧
        ((run as).state.pass r).2.Shows (held.grant r)) ∧
      (∀ r, ¬held.Permits r →
        (run as).state.tryAcquire r = (false, (run as).state) ∧
        ((run as).state.pass r).1 ≠ .ended (.ok ()) ∧
        ((run as).state.pass r).2.Shows held) ∧
      (∀ r, held r.tid r.page = some .exclusive → held.grant r = held) ∧
      (∀ r, (∀ u, (held u r.page).isSome = true → u = r.tid) → held.Permits r) ∧
      (∀ t page, ((run as).state.release t page).Shows (held.release t page)) ∧
      ∀ t, ((run as).state.releaseAll t).Shows (held.releaseAll t) ∧
        ((run as).state.releaseAll t).Forgets t := by
  have hv := valid_run as
  have hs := hv.shows
  refine ⟨(run as).state.modeOf, hs, ?_, ?_, ?_, ?_, fun r => Held.grant_of_exclusive,
    fun r => Held.permits_of_sole, ?_, ?_⟩
  · exact fun t page => ⟨rfl, hs.holds_eq t page, hs.mem_pagesLocked⟩
  · exact fun t => OrdSet.toList_ascending _
  · intro r hp
    obtain ⟨htry, hshows⟩ := hs.tryAcquire hv hp
    exact ⟨htry, hshows, hs.pass hv hp⟩
  · exact fun r hp => ⟨hs.tryAcquire_refused hv hp, hs.pass_refused hv hp⟩
  · exact fun t page => hs.release t page
  · exact fun t => ⟨hs.releaseAll t, LockTable.forgets_releaseAll _ t⟩

end LockSession

end PagePool
