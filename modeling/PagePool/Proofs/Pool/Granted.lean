import PagePool.Proofs.Pool.Failures
import PagePool.Proofs.Pool.Records

namespace PagePool.Pool

/-- A call is granted its lock, and is handed the page that it names. -/
structure Granted (p : Pool) (c : Call) (k : Pool) (heap : HeapTable) (page : Page) : Prop where
  locks_eq : p.locks.acquire c.request = (.granted, k.locks)
  same : SameContents none p k
  backed : k.Backed
  catalog_eq : k.catalog = p.catalog
  table_eq : p.catalog.table c.request.page.table = .ok heap
  cached : k.pages.get? c.request.page = some page

/-- A call is granted its lock, and then cannot load the page that it names. -/
def FailsToLoad (p : Pool) (c : Call) (e : Error) (k : Pool) : Prop :=
  ∃ locks, p.locks.acquire c.request = (.granted, locks) ∧
    ({ p with locks } : Pool).read c.request.tid c.request.page = (.error e, k)

/-- What a lock request of a call comes to. -/
inductive Requests (p : Pool) (c : Call) (fuel : Nat) :
    Pass Call (Except Error Answer) × Pool → Prop where
  | waits {locks} : p.locks.acquire c.request = (.waits, locks) →
      Requests p c fuel (.blocked c, { p with locks })
  | refused {locks} : p.locks.acquire c.request = (.deadlock, locks) →
      Requests p c fuel (.ended (.error (.transactionAborted c.request.tid)), { p with locks })
  | fails {e k} : p.FailsToLoad c e k → Requests p c fuel (.ended (.error e), k)
  | goesOn {k heap page o} : p.Granted c k heap page →
      o = (match k.continueOn c.request heap page c.task with
        | (.ended result, p) => (.ended result, p)
        | (.needs c, p) => p.runCall fuel c) → Requests p c fuel o

variable {p k : Pool} {c : Call} {page edited : Page} {heap : HeapTable} {q : PageId}

theorem requests (h : p.Backed) (hsource : c.task.source = .cache) (fuel : Nat) :
    p.Requests c fuel (p.runCall (fuel + 1) c) := by
  obtain ⟨request, task⟩ := c
  rcases ha : p.locks.acquire request with ⟨attempt, locks⟩
  cases attempt with
  | waits =>
    simp only [runCall, ha]
    exact .waits ha
  | deadlock =>
    simp only [runCall, ha]
    exact .refused ha
  | granted =>
    have hlocked := h.locks locks
    have hkept : SameContents none p { p with locks } := .of_cache rfl rfl rfl
    rcases hread : ({ p with locks } : Pool).read request.tid request.page with ⟨found, k⟩
    have hobtain : ({ p with locks } : Pool).obtain request task.source = (found, k) := by
      rw [hsource]
      exact hread
    cases found with
    | error e =>
      simp only [runCall, ha, resume, hobtain, Progress.failed]
      exact .fails ⟨locks, ha, hread⟩
    | ok page =>
      obtain ⟨hlocks, hcatalog, -⟩ := read_frame hread
      obtain ⟨hq, -⟩ := read_eq_ok hread
      have hbacked := hlocked.read request.tid request.page
      have hsame := SameContents.read hlocked request.tid request.page
      simp only [hread] at hbacked hsame
      -- a cached page is one that its table has
      obtain ⟨heap, hheap⟩ : ∃ heap, k.catalog.table request.page.table = .ok heap := by
        obtain ⟨d, hd⟩ := Option.isSome_iff_exists.1 (hbacked.pages hq).isStored
        obtain ⟨heap, hheap, -⟩ := Catalog.stored?_eq_some.1 hd
        exact ⟨heap, Catalog.table_eq_ok.2 hheap⟩
      have hgranted : p.Granted ⟨request, task⟩ k heap page :=
        ⟨hlocks ▸ ha, hkept.trans hsame, hbacked, hcatalog, hcatalog ▸ hheap, hq⟩
      refine .goesOn hgranted ?_
      rcases hrun : k.continueOn request heap page task with ⟨progress, p'⟩
      cases progress <;> simp only [runCall, ha, resume, hobtain, hheap, hrun]

namespace Granted

theorem layout_eq (h : p.Granted c k heap page) :
    p.catalog.layout? c.request.page.table = some heap.layout := layout?_of_table h.table_eq

theorem id_eq (h : p.Granted c k heap page) : page.id = c.request.page :=
  h.backed.intact.resident.id_eq h.cached

theorem newest?_eq (h : p.Granted c k heap page) : p.newest? c.request.page = some page.data := by
  rw [Pool.newest?_eq, ← h.same.visible_of_none, visible?_of_cached h.cached]
  rfl

/-- A changed page is installed under its exclusive lock, in its own place. -/
theorem continueOn_edited (h : p.Granted c k heap page)
    (hmode : c.request.mode = .exclusive) (he : c.task.edited? heap page = some edited) :
    k.continueOn c.request heap page c.task =
      (.ended (.ok .done), k.addDirty c.request.tid edited) := by
  have hid : edited.id = c.request.page := (edited_frame he).2.1.trans h.id_eq
  have hw : k.locks.isWriter c.request.tid edited.id = true := by
    rw [hid]
    exact LockTable.isWriter_of_granted h.locks_eq hmode
  have hcached : k.pages.contains edited.id = true := by
    rw [hid]
    exact isCached_iff.2 ⟨page, h.cached⟩
  have hdeliver : k.deliver c.request.tid true [edited] =
      (.ended (.ok .done), k.addDirty c.request.tid edited) := by
    simp only [deliver, if_true, installAll, install, hw, makeRoomFor, hcached]
    rfl
  rw [← hdeliver]
  obtain ⟨request, task⟩ := c
  cases task with
  | insert tuple held install =>
    cases install with
    | true =>
      have hplace : heap.place? page tuple = some edited := he
      simp only [continueOn, hplace]
    | false => contradiction
  | delete slot install =>
    cases install with
    | true =>
      have hremove : heap.remove? page slot = some edited := he
      simp only [continueOn, hremove]
    | false => contradiction
  | _ => contradiction

/-- An insert writes into the first free slot of its page. -/
theorem continueOn_insert {tuple : Bytes} {held : Bool} {slot : Nat} (h : p.Granted c k heap page)
    (hmode : c.request.mode = .exclusive) (htask : c.task = .insert tuple held true)
    (hslot : heap.layout.freeSlot page.data = some slot) :
    k.continueOn c.request heap page c.task = (.ended (.ok .done),
      k.addDirty c.request.tid { page with data := heap.layout.write page.data slot tuple }) := by
  refine h.continueOn_edited hmode ?_
  simp only [htask, Task.edited?, HeapTable.place?, hslot, Option.map_some]

end Granted

end PagePool.Pool
