import PagePool.Proofs.Lock.Held
import PagePool.Proofs.Pool.Requests

namespace PagePool

/-- What a task that succeeds makes of the bytes on its page. -/
def Task.change (layout : Layout) (data : Bytes) : Task → Bytes
  | .insert tuple _ _ =>
    match layout.freeSlot data with
    | some slot => layout.write data slot tuple
    | none => data
  | .delete slot _ => layout.clear data slot.toNat
  | _ => data

/-- What a transaction has done to a page under its lock: it has been handed some bytes, or it has
changed them. -/
inductive Deed where
  | read (page : PageId) (data : Bytes)
  | edit (page : PageId) (layout : Layout) (task : Task)

namespace Deed

def page : Deed → PageId
  | read q _ => q
  | edit q _ _ => q

def isEdit : Deed → Bool
  | read _ _ => false
  | edit _ _ _ => true

/-- Does the same again to pages of other contents. A read has to find what it found. -/
def redo (contents : PageId → Bytes) : Deed → Option (PageId → Bytes)
  | read q data => if contents q = data then some contents else none
  | edit q layout task => some (Function.update contents q (task.change layout (contents q)))

/-- Does the deeds again one after the other, with nobody else about. -/
def redoAll (contents : PageId → Bytes) (ds : List Deed) : Option (PageId → Bytes) :=
  ds.foldlM redo contents

variable {c c' k k' : PageId → Bytes} {q : PageId} {data : Bytes} {layout : Layout} {task : Task}
  {ds es : List Deed}

theorem redoAll_read :
    redoAll c (read q data :: ds) = some k ↔ c q = data ∧ redoAll c ds = some k := by
  simp only [redoAll, List.foldlM_cons, redo]
  by_cases hq : c q = data <;> simp [hq]

theorem redoAll_edit :
    redoAll c (edit q layout task :: ds) =
      redoAll (Function.update c q (task.change layout (c q))) ds := by
  simp [redoAll, redo]

theorem redoAll_append (hds : redoAll c ds = some k) (hes : redoAll k es = some k') :
    redoAll c (ds ++ es) = some k' := by
  rw [redoAll] at hds hes ⊢
  rw [List.foldlM_append, hds]
  exact hes

/-- Reads may be left out. -/
theorem redoAll_filter {keep : Deed → Bool} (h : redoAll c ds = some k)
    (hkeep : ∀ d ∈ ds, d.isEdit = true → keep d = true) :
    redoAll c (ds.filter keep) = some k := by
  induction ds generalizing c with
  | nil => exact h
  | cons d ds ih =>
    have htail : ∀ d ∈ ds, d.isEdit = true → keep d = true :=
      fun e he => hkeep e (List.mem_cons_of_mem _ he)
    cases d with
    | read q data =>
      obtain ⟨hq, hrest⟩ := redoAll_read.1 h
      rw [List.filter_cons]
      split
      · exact redoAll_read.2 ⟨hq, ih hrest htail⟩
      · exact ih hrest htail
    | edit q layout task =>
      rw [redoAll_edit] at h
      rw [List.filter_cons_of_pos (hkeep _ List.mem_cons_self rfl), redoAll_edit]
      exact ih h htail

/-- The pages that the deeds are not about may have any contents; they keep them. -/
theorem redoAll_frame (h : redoAll c ds = some k)
    (hpages : ∀ q, c' q = c q ∧ k' q = k q ∨ q ∉ ds.map page ∧ k' q = c' q) :
    redoAll c' ds = some k' := by
  induction ds generalizing c c' with
  | nil =>
    obtain rfl : c = k := Option.some.inj h
    refine congrArg some (funext fun q => ?_)
    rcases hpages q with ⟨hc, hk⟩ | ⟨-, hk⟩
    · rw [hc, hk]
    · exact hk.symm
  | cons d ds ih =>
    have hself : c' d.page = c d.page := by
      rcases hpages d.page with ⟨hc, -⟩ | ⟨hnot, -⟩
      · exact hc
      · exact absurd List.mem_cons_self hnot
    cases d with
    | read q data =>
      obtain ⟨hq, hrest⟩ := redoAll_read.1 h
      refine redoAll_read.2 ⟨hself.trans hq, ih hrest fun r => ?_⟩
      exact (hpages r).imp_right fun ⟨hnot, hk⟩ => ⟨fun hr => hnot (List.mem_cons_of_mem _ hr), hk⟩
    | edit q layout task =>
      have hsame : c' q = c q := hself
      rw [redoAll_edit] at h ⊢
      refine ih h fun r => ?_
      by_cases hr : r = q
      · -- the changed page has been the same before, and so it is the same now
        subst hr
        refine .inl ⟨by rw [Function.update_self, Function.update_self, hsame], ?_⟩
        rcases hpages r with ⟨-, hk⟩ | ⟨hnot, -⟩
        · exact hk
        · exact absurd List.mem_cons_self hnot
      · rw [Function.update_of_ne hr, Function.update_of_ne hr]
        exact (hpages r).imp_right fun ⟨hnot, hk⟩ =>
          ⟨fun hr => hnot (List.mem_cons_of_mem _ hr), hk⟩

end Deed

/-- The change that the end of a call has made. -/
def Call.edits (layout? : TableId → Option Layout) (c : Call) : Except Error Answer → List Deed
  | .ok .done =>
    match layout? c.request.page.table with
    | some layout => [.edit c.request.page layout c.task]
    | none => []
  | _ => []

theorem Call.mem_edits {layout? : TableId → Option Layout} {c : Call}
    {result : Except Error Answer} {d : Deed} (hd : d ∈ c.edits layout? result) :
    result = .ok .done ∧ ∃ layout, d = .edit c.request.page layout c.task := by
  unfold edits at hd
  split at hd
  · split at hd
    · rename_i layout _
      exact ⟨rfl, layout, List.mem_singleton.1 hd⟩
    · contradiction
  · contradiction

namespace Ledger

variable {l : Ledger} {layout? : TableId → Option Layout} {c : Call} {result : Except Error Answer}

theorem view_set (l : Ledger) (t : TransactionId) (q : PageId) (d : Bytes) :
    (l.set t q d).view t = Function.update (l.view t) q d := by
  funext r
  by_cases hr : r = q
  · simp [view, set, hr]
  · simp [view, set, hr]

theorem view_edit (l : Ledger) (layout : Layout) (r : LockRequest) (task : Task) :
    (l.edit layout r task).view r.tid =
      Function.update (l.view r.tid) r.page (task.change layout (l.view r.tid r.page)) := by
  cases task with
  | insert tuple heldBefore install =>
    simp only [edit, Task.change]
    cases layout.freeSlot (l.view r.tid r.page) with
    | none => exact (Function.update_eq_self _ _).symm
    | some slot => exact view_set _ _ _ _
  | delete slot install => exact view_set _ _ _ _
  | _ => exact (Function.update_eq_self _ _).symm

/-- The ledger takes note of just the change that the call has made. -/
theorem redoAll_edits :
    Deed.redoAll (l.view c.request.tid) (c.edits layout? result) =
      some ((l.record layout? c result).view c.request.tid) := by
  cases result with
  | error e => rfl
  | ok answer =>
    cases answer with
    | done =>
      simp only [Call.edits, record]
      cases layout? c.request.page.table with
      | none => rfl
      | some layout =>
        simp only [Deed.redoAll_edit, view_edit]
        rfl
    | _ => rfl

end Ledger

namespace Pool

variable {p p' k : Pool} {l : Ledger} {pages : List PageId} {c : Call} {page : Page}
  {locks : LockTable} {t : TransactionId} {q : PageId}

/-- Under its lock a call is handed what the ledger has for its transaction. -/
theorem obtain_eq (h : p.Agrees l) (hc : Waits p l pages c)
    (ha : p.locks.acquire c.request = (.granted, locks))
    (ho : ({ p with locks } : Pool).obtain c.request c.task.source = (.ok page, k)) :
    page = l.page c.request.tid c.request.page ∧ k.catalog = p.catalog := by
  have hlocked := Advances.acquire h c.request
  rw [ha] at hlocked
  obtain ⟨r, task⟩ := c
  have hsource : task.source = .cache := by
    cases task with
    | edit source edited writes => exact hc.elim
    | _ => rfl
  rw [hsource] at ho
  have hread : ({ p with locks } : Pool).read r.tid r.page = (.ok page, k) := ho
  obtain ⟨hlocks, hcatalog, -⟩ := read_frame hread
  refine ⟨(advances_read hlocked.agrees hread).agrees.eq_page ?_ (read_eq_ok hread).1, hcatalog⟩
  rw [hlocks]
  exact h.locks.holds_of_granted ha

theorem handed_eq (h : p.Agrees l) (hc : Waits p l pages c) (hhanded : p.handed? c = some page) :
    page = l.page c.request.tid c.request.page := by
  unfold handed? at hhanded
  rcases ha : p.locks.acquire c.request with ⟨attempt, locks⟩
  rw [ha] at hhanded
  cases attempt with
  | granted =>
    rcases ho : ({ p with locks } : Pool).obtain c.request c.task.source with ⟨found, k⟩
    simp only [ho] at hhanded
    cases found with
    | error e => contradiction
    | ok handed =>
      obtain rfl : handed = page := Option.some.inj hhanded
      exact (obtain_eq h hc ha ho).1
  | _ => contradiction

/-- Who has changed a page by a call has set it. -/
theorem pending_of_done (h : p.Agrees l) (hc : Waits p l pages c)
    (hrun : p.runCall 1 c = (.ended (.ok .done), p')) :
    ((l.record p.catalog.layout? c (.ok .done)).pending c.request.tid c.request.page).isSome =
      true := by
  have hedit : ∀ source edited writes, c.task ≠ .edit source edited writes := by
    intro source edited writes htask
    rw [Waits, htask] at hc
    exact hc
  obtain ⟨k, edited, locks, page, heap, ha, ho, hheap, he⟩ := installs_of_done hedit hrun
  obtain ⟨rfl, hcatalog⟩ := obtain_eq h hc ha ho
  rw [hcatalog] at hheap
  obtain ⟨r, task⟩ := c
  simp only [Ledger.record, layout?_of_table hheap]
  cases task with
  | insert tuple heldBefore install =>
    obtain ⟨-, rfl, -⟩ := hc
    have hslot : (heap.layout.freeSlot (l.view r.tid r.page)).isSome = true := by
      have hplace : (heap.place? (l.page r.tid r.page) tuple).isSome = true :=
        Option.isSome_iff_exists.2 ⟨edited, he⟩
      rwa [HeapTable.place?, Option.isSome_map] at hplace
    obtain ⟨slot, hslot⟩ := Option.isSome_iff_exists.1 hslot
    simp [Ledger.edit, hslot, Ledger.set]
  | delete slot install => simp [Ledger.edit, Ledger.set]
  | _ => contradiction

/-- A completion that counts leaves its transaction no lock. -/
theorem holds_complete (h : p.Agrees l) {commit : Bool}
    (hends : commit = true → (p.logCommit t).1 = .ok ()) :
    (p.complete t commit).2.locks.holds t q = false := by
  have hnone {k : LockTable} (hv : k.Valid) : (k.releaseAll t).holds t q = false := by
    rw [(hv.shows.releaseAll t).holds_eq]
    simp [Held.releaseAll]
  cases commit with
  | true =>
    rcases commit_cases p t with ⟨e, journal, hlog, -⟩ | ⟨journal, stats, -, -, hc⟩
    · rw [hends rfl] at hlog
      contradiction
    · simp only [complete, if_true, hc]
      obtain ⟨-, hlocks, -⟩ := forEachPage_keeps (p := { p with journal }) writeCommitted_keeps
        (p.dirtiedBy t)
      refine hnone ?_
      rw [deactivate, hlocks]
      exact h.locks
  | false =>
    rcases abort_cases p t with ⟨-, journal, stats, habort⟩ | ⟨-, habort⟩
    · simp only [complete, Bool.false_eq_true, if_false, habort]
      obtain ⟨-, hlocks, -⟩ := forEachPage_keeps (p := p) rollBack_keeps (p.dirtiedBy t)
      refine hnone ?_
      rw [deactivate, hlocks]
      exact h.locks
    · simp only [complete, Bool.false_eq_true, if_false, habort]
      exact hnone h.locks

end Pool

end PagePool
