import PagePool.Pool.Call
import PagePool.Proofs.Store.Stored

namespace PagePool

/-- What the pages hold when there is no cache: the committed bytes of every page, and over them
the bytes that each unfinished transaction has set. -/
structure Ledger where
  committed : PageId → Bytes
  pending : TransactionId → PageId → Option Bytes

namespace Ledger

/-- The stored pages are committed; a page that no table has yet will start out as zeros. -/
def ofCatalog (c : Catalog) : Ledger :=
  ⟨fun q => (c.stored? q).getD (Bytes.zeros c.pageSize), fun _ _ => none⟩

/-- The bytes that a transaction finds on a page. -/
def view (l : Ledger) (t : TransactionId) (q : PageId) : Bytes :=
  (l.pending t q).getD (l.committed q)

/-- The page that a transaction is handed: its view, marked as its own if it has set it. -/
def page (l : Ledger) (t : TransactionId) (q : PageId) : Page :=
  ⟨q, l.view t q, l.committed q, (l.pending t q).map fun _ => t⟩

/-- The tuples that a transaction finds on a page, in slot order. -/
def tuples (l : Ledger) (layout : Layout) (t : TransactionId) (q : PageId) : List StoredTuple :=
  (layout.usedSlots (l.view t q)).map fun slot =>
    (⟨q, UInt16.ofNat slot⟩, layout.read (l.view t q) slot)

def set (l : Ledger) (t : TransactionId) (q : PageId) (d : Bytes) : Ledger :=
  { l with pending := fun u r => if u = t ∧ r = q then some d else l.pending u r }

def commit (l : Ledger) (t : TransactionId) : Ledger :=
  ⟨l.view t, fun u r => if u = t then none else l.pending u r⟩

def abort (l : Ledger) (t : TransactionId) : Ledger :=
  { l with pending := fun u r => if u = t then none else l.pending u r }

/-- What an edit that has succeeded does to its transaction's view of the page. -/
def edit (l : Ledger) (layout : Layout) (r : LockRequest) : Task → Ledger
  | .insert tuple _ _ =>
    match layout.freeSlot (l.view r.tid r.page) with
    | some slot => l.set r.tid r.page (layout.write (l.view r.tid r.page) slot tuple)
    | none => l
  | .delete slot _ => l.set r.tid r.page (layout.clear (l.view r.tid r.page) slot.toNat)
  | _ => l

/-- What the end of a call does: only an edit that has succeeded counts. -/
def record (l : Ledger) (layout? : TableId → Option Layout) (c : Call) :
    Except Error Answer → Ledger
  | .ok .done =>
    match layout? c.request.page.table with
    | some layout => l.edit layout c.request c.task
    | none => l
  | _ => l

/-- The tuples that a transaction finds on a page of some table. -/
def tuplesIn (l : Ledger) (layout? : TableId → Option Layout) (t : TransactionId) (q : PageId) :
    List StoredTuple :=
  match layout? q.table with
  | some layout => l.tuples layout t q
  | none => []

variable {l : Ledger} {layout : Layout} {t u : TransactionId} {q r : PageId} {d : Bytes}

theorem view_eq_of_pending (h : l.pending t q = some d) : l.view t q = d := by
  rw [view, h]
  rfl

theorem view_eq_of_not_pending (h : l.pending t q = none) : l.view t q = l.committed q := by
  rw [view, h]
  rfl

/-- The view of a transaction depends on what is committed and on its own changes. -/
theorem view_congr {k : Ledger} (hc : k.committed q = l.committed q)
    (hp : k.pending t q = l.pending t q) : k.view t q = l.view t q := by
  rw [view, hc, hp]
  rfl

theorem tuplesIn_congr {k : Ledger} {layout? : TableId → Option Layout}
    (h : k.view t q = l.view t q) : k.tuplesIn layout? t q = l.tuplesIn layout? t q := by
  simp only [tuplesIn, tuples, h]

theorem page_of_mem_tuplesIn {layout? : TableId → Option Layout} {x : StoredTuple}
    (hx : x ∈ l.tuplesIn layout? t q) : x.1.page = q := by
  unfold tuplesIn tuples at hx
  split at hx
  · obtain ⟨slot, -, rfl⟩ := List.mem_map.1 hx
    rfl
  · contradiction

/-! What the end of a call leaves as it is. -/

section Record

variable {layout? : TableId → Option Layout} {c : Call} {result : Except Error Answer}

theorem record_eq_self (h : result ≠ .ok .done) : l.record layout? c result = l := by
  cases result with
  | error e => rfl
  | ok answer =>
    cases answer with
    | done => exact absurd rfl h
    | _ => rfl

theorem pending_record_of_ne (h : q ≠ c.request.page) :
    (l.record layout? c result).pending t q = l.pending t q := by
  have hset (u : TransactionId) (d : Bytes) :
      (l.set u c.request.page d).pending t q = l.pending t q := if_neg fun he => h he.2
  unfold record
  split
  · split
    · unfold edit
      split
      · split
        · exact hset _ _
        · rfl
      · exact hset _ _
      · rfl
    · rfl
  · rfl

theorem record_of_scan {rest : List PageId} {found : List StoredTuple}
    (h : c.task = .scan rest found) : l.record layout? c result = l := by
  unfold record
  split
  · rw [h]
    split <;> rfl
  · rfl

end Record

/-- There is nothing to take back from a transaction that has set nothing. -/
theorem abort_eq_self (h : ∀ q, l.pending t q = none) : l.abort t = l := by
  have hpending : (fun u r => if u = t then none else l.pending u r) = l.pending := by
    funext u r
    split
    · rename_i hu
      rw [hu, h r]
    · rfl
  rw [abort, hpending]

/-! A completion page by page. -/

/-- Commits one page of a transaction. -/
def commitPage (t : TransactionId) (l : Ledger) (q : PageId) : Ledger :=
  ⟨fun r => if r = q then l.view t q else l.committed r,
    fun u r => if u = t ∧ r = q then none else l.pending u r⟩

/-- Takes one page of a transaction back. -/
def abortPage (t : TransactionId) (l : Ledger) (q : PageId) : Ledger :=
  { l with pending := fun u r => if u = t ∧ r = q then none else l.pending u r }

theorem pending_foldl_commitPage (qs : List PageId) :
    (qs.foldl (commitPage t) l).pending u r = if u = t ∧ r ∈ qs then none else l.pending u r := by
  induction qs generalizing l with
  | nil => simp
  | cons q qs ih =>
    rw [List.foldl_cons, ih]
    simp only [commitPage, List.mem_cons]
    grind

theorem pending_foldl_abortPage (qs : List PageId) :
    (qs.foldl (abortPage t) l).pending u r = if u = t ∧ r ∈ qs then none else l.pending u r := by
  induction qs generalizing l with
  | nil => simp
  | cons q qs ih =>
    rw [List.foldl_cons, ih]
    simp only [abortPage, List.mem_cons]
    grind

theorem committed_foldl_abortPage (qs : List PageId) :
    (qs.foldl (abortPage t) l).committed = l.committed := by
  induction qs generalizing l with
  | nil => rfl
  | cons q qs ih => exact ih

theorem committed_foldl_commitPage (qs : List PageId) :
    (qs.foldl (commitPage t) l).committed r =
      if r ∈ qs then l.view t r else l.committed r := by
  induction qs generalizing l with
  | nil => simp
  | cons q qs ih =>
    rw [List.foldl_cons, ih]
    by_cases hr : r = q
    · subst hr
      simp [commitPage, view]
    · have hview : (commitPage t l q).view t r = l.view t r := by
        apply view_congr
        · simp [commitPage, hr]
        · simp [commitPage, hr]
      rw [hview]
      simp [commitPage, hr]

/-- A transaction is committed once every page that it has set is. -/
theorem foldl_commitPage {qs : List PageId} (h : ∀ r, r ∉ qs → l.pending t r = none) :
    qs.foldl (commitPage t) l = l.commit t := by
  have hcommitted : (qs.foldl (commitPage t) l).committed = l.view t := by
    funext r
    rw [committed_foldl_commitPage]
    split
    · rfl
    · rename_i hr
      exact (view_eq_of_not_pending (h r hr)).symm
  have hpending : (qs.foldl (commitPage t) l).pending =
      fun u r => if u = t then none else l.pending u r := by
    funext u r
    rw [pending_foldl_commitPage]
    by_cases hu : u = t
    · subst hu
      by_cases hr : r ∈ qs <;> simp [hr, h]
    · simp [hu]
  rw [commit, ← hcommitted, ← hpending]

theorem foldl_abortPage {qs : List PageId} (h : ∀ r, r ∉ qs → l.pending t r = none) :
    qs.foldl (abortPage t) l = l.abort t := by
  have hpending : (qs.foldl (abortPage t) l).pending =
      fun u r => if u = t then none else l.pending u r := by
    funext u r
    rw [pending_foldl_abortPage]
    by_cases hu : u = t
    · subst hu
      by_cases hr : r ∈ qs <;> simp [hr, h]
    · simp [hu]
  rw [abort, ← hpending, ← committed_foldl_abortPage (l := l) (t := t) qs]

end Ledger

end PagePool
