import PagePool.Proofs.Lock.Validity

namespace PagePool.LockTable

variable {l k : LockTable} {r : LockRequest} {t u : TransactionId} {page q : PageId}

theorem Valid.holds_of_isWriter (hv : l.Valid) (hw : l.isWriter t q = true) :
    l.holds t q = true :=
  hv.mem_ownedBy.2 (.inl (isWriter_iff.1 hw))

/-- Whoever holds a page that another transaction writes is that transaction. -/
theorem Valid.eq_of_isWriter (hv : l.Valid) (hw : l.isWriter t q = true)
    (hu : l.holds u q = true) : u = t :=
  hv.eq_of_writer (isWriter_iff.1 hw) hu

/-! What a request leaves of the locks that are there. -/

theorem holds_grant_of_ne (hne : u ≠ r.tid) : (l.grant r).holds u q = l.holds u q := by
  by_cases hw : l.isWriter r.tid r.page = true
  · rw [grant_of_isWriter hw]
  · simp [holds, ownedBy, get?_owned_grant hw, hne]

theorem holds_grant (h : l.holds u q = true) : (l.grant r).holds u q = true := by
  by_cases hw : l.isWriter r.tid r.page = true
  · rwa [grant_of_isWriter hw]
  · exact (mem_ownedBy_grant hw).2 (.inl h)

theorem isWriter_grant (hg : l.isGrantable r = true) (h : l.isWriter u q = true) :
    (l.grant r).isWriter u q = true := by
  rw [isWriter_iff] at h ⊢
  rw [get?_writer_grant]
  split
  · rename_i hq
    by_cases hu : u = r.tid
    · rw [hu]
    · exact absurd (hq.1 ▸ h) (not_writer_of_isGrantable hg hu)
  · exact h

theorem holds_acquire_of_ne (hne : u ≠ r.tid) : (l.acquire r).2.holds u q = l.holds u q := by
  unfold acquire
  split
  · exact holds_grant_of_ne hne
  · split <;> rfl

theorem holds_acquire (h : l.holds u q = true) : (l.acquire r).2.holds u q = true := by
  unfold acquire
  split
  · exact holds_grant h
  · split <;> exact h

theorem isWriter_acquire (h : l.isWriter u q = true) : (l.acquire r).2.isWriter u q = true := by
  unfold acquire
  split
  · rename_i hg
    exact isWriter_grant hg h
  · split <;> exact h

theorem acquire_granted (h : l.acquire r = (.granted, k)) :
    l.isGrantable r = true ∧ k = (l.grant r).stopWaiting r.tid := by
  unfold acquire at h
  split at h
  · rename_i hg
    exact ⟨hg, (Prod.mk.inj h).2.symm⟩
  · split at h <;> cases (Prod.mk.inj h).1

/-- A granted request holds its page. -/
theorem Valid.holds_of_granted (hv : l.Valid) (h : l.acquire r = (.granted, k)) :
    k.holds r.tid r.page = true := by
  obtain ⟨hg, rfl⟩ := acquire_granted h
  by_cases hw : l.isWriter r.tid r.page = true
  · have hold := hv.holds_of_isWriter hw
    rwa [grant_of_isWriter hw]
  · exact (mem_ownedBy_grant hw).2 (.inr ⟨rfl, rfl⟩)

theorem isWriter_of_granted (h : l.acquire r = (.granted, k)) (hm : r.mode = .exclusive) :
    k.isWriter r.tid r.page = true := by
  obtain ⟨-, rfl⟩ := acquire_granted h
  have hw : (l.grant r).writer.get? r.page = some r.tid := by
    rw [get?_writer_grant, if_pos ⟨rfl, hm⟩]
  exact isWriter_iff.2 hw

/-! What a release leaves. -/

theorem holds_drop_of_ne (hne : u ≠ t) : (l.drop t page).holds u q = l.holds u q := by
  simp [holds, ownedBy, get?_owned_drop, hne]

theorem isWriter_drop (h : l.isWriter u q = true) (hne : ¬(q = page ∧ u = t)) :
    (l.drop t page).isWriter u q = true := by
  rw [isWriter_iff] at h ⊢
  rw [get?_writer_drop, if_neg]
  · exact h
  · rintro ⟨rfl, ht⟩
    exact hne ⟨rfl, Option.some.inj (h.symm.trans ht)⟩

theorem holds_refreshWaiters : (l.refreshWaiters page).holds u q = l.holds u q := by
  simp [holds, ownedBy]

theorem isWriter_refreshWaiters : (l.refreshWaiters page).isWriter u q = l.isWriter u q := by
  simp [isWriter]

theorem holds_release_of_ne (hne : u ≠ t) : (l.release t page).holds u q = l.holds u q := by
  unfold release
  split
  · rw [holds_refreshWaiters, holds_drop_of_ne hne]
  · exact holds_drop_of_ne hne

theorem holds_release (h : l.holds u q = true) (hne : q ≠ page) :
    (l.release t page).holds u q = true := by
  have hdropped : (l.drop t page).holds u q = true := mem_ownedBy_drop.2 ⟨h, fun he => hne he.1⟩
  unfold release
  split
  · rwa [holds_refreshWaiters]
  · exact hdropped

theorem isWriter_release (h : l.isWriter u q = true) (hne : ¬(q = page ∧ u = t)) :
    (l.release t page).isWriter u q = true := by
  unfold release
  split
  · rw [isWriter_refreshWaiters]
    exact isWriter_drop h hne
  · exact isWriter_drop h hne

theorem holds_foldl_refreshWaiters {pages : List PageId} :
    (pages.foldl refreshWaiters l).holds u q = l.holds u q := by
  induction pages generalizing l with
  | nil => rfl
  | cons page pages ih => rw [List.foldl_cons, ih, holds_refreshWaiters]

theorem isWriter_foldl_refreshWaiters {pages : List PageId} :
    (pages.foldl refreshWaiters l).isWriter u q = l.isWriter u q := by
  induction pages generalizing l with
  | nil => rfl
  | cons page pages ih => rw [List.foldl_cons, ih, isWriter_refreshWaiters]

theorem holds_foldl_drop_of_ne {pages : List PageId} (hne : u ≠ t) :
    (pages.foldl (fun l page => l.drop t page) l).holds u q = l.holds u q := by
  induction pages generalizing l with
  | nil => rfl
  | cons page pages ih => rw [List.foldl_cons, ih, holds_drop_of_ne hne]

theorem isWriter_foldl_drop {pages : List PageId} (hne : u ≠ t) (h : l.isWriter u q = true) :
    (pages.foldl (fun l page => l.drop t page) l).isWriter u q = true := by
  induction pages generalizing l with
  | nil => exact h
  | cons page pages ih => exact ih (isWriter_drop h fun hq => hne hq.2)

theorem holds_releaseAll_of_ne (hne : u ≠ t) : (l.releaseAll t).holds u q = l.holds u q := by
  unfold releaseAll
  rw [holds_foldl_refreshWaiters]
  exact holds_foldl_drop_of_ne hne

theorem isWriter_releaseAll (hne : u ≠ t) (h : l.isWriter u q = true) :
    (l.releaseAll t).isWriter u q = true := by
  unfold releaseAll
  rw [isWriter_foldl_refreshWaiters]
  exact isWriter_foldl_drop hne h

end PagePool.LockTable
