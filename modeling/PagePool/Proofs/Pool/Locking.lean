import PagePool.Proofs.Lock.Held
import PagePool.Proofs.Pool.Requests

namespace PagePool

namespace LockTable

variable {l k : LockTable} {r : LockRequest} {t u : TransactionId}

/-- Giving up all locks of one transaction touches no lock of another. -/
theorem modeOf_releaseAll (hv : l.Valid) (t u : TransactionId) (q : PageId) :
    (l.releaseAll t).modeOf u q = if u = t then none else l.modeOf u q :=
  (hv.shows.releaseAll t).modeOf_eq u q

theorem modeOf_release (hv : l.Valid) (t : TransactionId) (page : PageId) :
    (l.release t page).modeOf = Held.release l.modeOf t page :=
  funext₂ (hv.shows.release t page).modeOf_eq

theorem modeOf_of_granted (hv : l.Valid) (h : l.acquire r = (.granted, k)) :
    k.modeOf = Held.grant l.modeOf r := by
  obtain ⟨hg, rfl⟩ := acquire_granted h
  have hgranted := hv.shows.grant ((Shows.isGrantable_iff hv hv.shows).1 hg)
  exact funext₂ (hgranted.of_indexes rfl rfl rfl).modeOf_eq

/-- A request that is not granted moves no lock. -/
theorem modeOf_of_refused (h : (l.acquire r).1 ≠ .granted) :
    (l.acquire r).2.modeOf = l.modeOf := by
  unfold acquire at h ⊢
  split at h
  · exact absurd rfl h
  · rename_i hg
    rw [if_neg hg]
    split <;> rfl

/-- A request touches no lock of another transaction. -/
theorem modeOf_acquire_of_ne (hv : l.Valid) (hne : u ≠ r.tid) :
    (l.acquire r).2.modeOf u = l.modeOf u := by
  rcases ha : l.acquire r with ⟨attempt, k⟩
  cases attempt with
  | granted =>
    funext q
    rw [modeOf_of_granted hv ha, Held.grant, if_neg fun h => hne h.1]
  | _ =>
    have hsame := modeOf_of_refused (l := l) (r := r) (by rw [ha]; nofun)
    rw [ha] at hsame
    exact congrFun hsame u

end LockTable

namespace Pool

variable {p : Pool} {q : PageId} {t : TransactionId} {c : Call}

/-! What each step does to the locks. -/

theorem locks_complete (p : Pool) (t : TransactionId) (commit : Bool) :
    (p.complete t commit).2.locks = p.locks ∨
      (p.complete t commit).2.locks = p.locks.releaseAll t := by
  cases commit with
  | true =>
    rcases commit_cases p t with ⟨e, journal, -, hc⟩ | ⟨journal, stats, -, -, hc⟩
    · exact .inl (congrArg (fun o => o.2.locks) hc)
    · obtain ⟨-, hlocks, -⟩ := forEachPage_keeps (p := { p with journal }) writeCommitted_keeps
        (p.dirtiedBy t)
      exact .inr ((congrArg Pool.locks hc).trans (congrArg (LockTable.releaseAll · t) hlocks))
  | false =>
    rcases abort_cases p t with ⟨-, journal, stats, habort⟩ | ⟨-, habort⟩
    · obtain ⟨-, hlocks, -⟩ := forEachPage_keeps (p := p) rollBack_keeps (p.dirtiedBy t)
      exact .inr ((congrArg Pool.locks habort).trans (congrArg (LockTable.releaseAll · t) hlocks))
    · exact .inr (congrArg Pool.locks habort)

theorem locks_flush (p : Pool) (q : PageId) : (p.flush q).2.locks = p.locks := by
  unfold flush
  split
  · rfl
  · rename_i page _
    split
    · rename_i owner _
      obtain ⟨result, journal, hlog⟩ := logFlush_eq p owner page
      simp only [flushDirty, hlog]
      cases result with
      | error e => rfl
      | ok u =>
        simp only
        split
        · rfl
        · split <;> rfl
    · unfold flushClean
      split
      · split <;> rfl
      · rfl

theorem locks_flushEach (p : Pool) (qs : List PageId) : (p.flushEach qs).2.locks = p.locks :=
  flushEach_preserves (P := fun k => k.locks = p.locks)
    (fun q h => (locks_flush _ q).trans h) rfl qs

theorem locks_discard (p : Pool) (q : PageId) : (p.discard q).locks = p.locks := by
  unfold discard
  split <;> rfl

theorem valid_locks_resume (h : p.locks.Valid) (c : Call) : (p.resume c).2.locks.Valid := by
  rcases locks_resume p c with hlocks | ⟨-, hlocks⟩
  · rwa [hlocks]
  · rw [hlocks]
    exact h.release _ _

theorem valid_locks_turn (h : p.locks.Valid) (c : Call) : (p.runCall 1 c).2.locks.Valid := by
  have hlocked : (p.locks.acquire c.request).2.Valid := h.acquire c.request
  rcases runCall_one_cases p c with
    ⟨locks, rfl, hrun | ⟨e, hrun⟩⟩ | ⟨locks, ha, ⟨r, p', hresume, hrun⟩ | ⟨c', p', hresume, hrun⟩⟩
  · rwa [hrun]
  · rwa [hrun]
  all_goals
    rw [ha] at hlocked
    have hresumed := valid_locks_resume (p := { p with locks }) hlocked c
    rw [hresume] at hresumed
    rwa [hrun]

/-- A turn touches no lock of another transaction. -/
theorem modeOf_turn_of_ne {u : TransactionId} (hv : p.locks.Valid) (hne : u ≠ c.request.tid) :
    (p.runCall 1 c).2.locks.modeOf u = p.locks.modeOf u := by
  have hlocked := LockTable.modeOf_acquire_of_ne hv hne
  have hvalid := hv.acquire c.request
  rcases runCall_one_cases p c with
    ⟨locks, rfl, hrun | ⟨e, hrun⟩⟩ | ⟨locks, ha, ⟨r, p', hresume, hrun⟩ | ⟨c', p', hresume, hrun⟩⟩
  · rwa [hrun]
  · rwa [hrun]
  all_goals
    rw [ha] at hlocked hvalid
    rw [hrun, ← hlocked]
    have hcases := locks_resume { p with locks } c
    rw [hresume] at hcases
    rcases hcases with hlocks | ⟨-, hlocks⟩
    · exact congrArg (fun l : LockTable => l.modeOf u) hlocks
    · refine (congrArg (fun l : LockTable => l.modeOf u) hlocks).trans ?_
      funext q
      rw [LockTable.modeOf_release hvalid, Held.release, if_neg fun h => hne h.1]

end Pool

namespace World

variable {w start : World} {rule : World → Action → Prop}

/-- Every step leaves a valid lock table, whatever its callers keep to. -/
theorem valid_locks_perform (h : w.pool.locks.Valid) (a : Action) :
    (w.perform a).pool.locks.Valid := by
  cases a with
  | begin => exact h
  | call step c =>
    obtain ⟨catalog, ⟨result, hs⟩ | ⟨call, hs, -⟩⟩ := Pool.start_cases w.pool c
    · simp only [perform, issue, hs]
      exact h
    · simp only [perform, issue, hs]
      exact h
  | turn i =>
    cases hi : w.session.pending[i]? with
    | none =>
      simp only [perform, turn_of_absent hi]
      exact h
    | some call =>
      simp only [perform]
      rw [pool_turn hi]
      exact Pool.valid_locks_turn h call.call
  | complete t commit =>
    rcases Pool.locks_complete w.pool t commit with hlocks | hlocks
    · exact hlocks.symm ▸ h
    · exact hlocks.symm ▸ h.releaseAll t
  | flush page => exact (Pool.locks_flush w.pool page).symm ▸ h
  | flushAll => exact (Pool.locks_flushEach w.pool _).symm ▸ h
  | flushOf t => exact (Pool.locks_flushEach w.pool _).symm ▸ h
  | discard page => exact (Pool.locks_discard w.pool page).symm ▸ h
  | releaseLock t page => exact h.release t page
  | failStore table faults =>
    simp only [perform]
    cases w.pool.catalog.setFaults table faults with
    | error e => exact h
    | ok catalog => exact h
  | failLog refuses forceFails => exact h

theorem valid_locks_ofPool {p : Pool} {capacity : Nat} {catalog : Catalog} {journal : Journal}
    (hp : Pool.make capacity catalog journal = .ok p) : (ofPool p).pool.locks.Valid := by
  obtain ⟨-, rfl⟩ := Pool.make_eq_ok hp
  exact LockTable.valid_empty

theorem Reaches.valid_locks (hr : Reaches rule start w) (h : start.pool.locks.Valid) :
    w.pool.locks.Valid := by
  induction hr with
  | refl => exact h
  | step _ _ ih => exact valid_locks_perform ih _

end World

end PagePool
