import Mathlib.Data.List.Nodup
import PagePool.Proofs.Pool.Deeds

namespace PagePool

theorem PageId.eq_of_toNat {q r : PageId} (ht : q.table = r.table)
    (hn : q.pageNo.toNat = r.pageNo.toNat) : q = r := by
  obtain ⟨t, n⟩ := q
  obtain ⟨u, m⟩ := r
  rw [UInt32.toNat_inj] at hn
  simp_all

namespace TableId

/-- The first `n` pages of a table, in order. -/
def pages (i : TableId) (n : Nat) : List PageId :=
  (List.range n).map fun k => ⟨i, UInt32.ofNat k⟩

variable {i : TableId} {n m k : Nat} {q : PageId}

@[simp] theorem length_pages (i : TableId) (n : Nat) : (i.pages n).length = n := by simp [pages]

theorem toNat_ofNat_page (hk : k < n) (hn : n ≤ UInt32.size) : (UInt32.ofNat k).toNat = k := by
  rw [UInt32.toNat_ofNat']
  exact Nat.mod_eq_of_lt (Nat.lt_of_lt_of_le hk hn)

theorem mem_pages (hn : n ≤ UInt32.size) : q ∈ i.pages n ↔ q.table = i ∧ q.pageNo.toNat < n := by
  rw [pages, List.mem_map]
  constructor
  · rintro ⟨k, hk, rfl⟩
    rw [List.mem_range] at hk
    exact ⟨rfl, by rwa [toNat_ofNat_page hk hn]⟩
  · rintro ⟨rfl, hq⟩
    refine ⟨q.pageNo.toNat, List.mem_range.2 hq, ?_⟩
    rw [UInt32.ofNat_toNat]

theorem nodup_pages (hn : n ≤ UInt32.size) : (i.pages n).Nodup := by
  refine List.nodup_range.map_on fun k hk j hj he => ?_
  rw [List.mem_range] at hk hj
  have hpage : UInt32.ofNat k = UInt32.ofNat j := congrArg PageId.pageNo he
  rw [← toNat_ofNat_page hk hn, ← toNat_ofNat_page hj hn, hpage]

/-- Further pages come after those that there were. -/
theorem pages_eq_append (h : n ≤ m) (hm : m ≤ UInt32.size) :
    ∃ more, i.pages m = i.pages n ++ more ∧ ∀ q ∈ more, q.table = i ∧ n ≤ q.pageNo.toNat := by
  refine ⟨(List.range' n (m - n)).map fun k => ⟨i, UInt32.ofNat k⟩, ?_, ?_⟩
  · have hsplit := List.range'_append_1 (s := 0) (m := n) (n := m - n)
    rw [Nat.zero_add, Nat.add_sub_of_le h] at hsplit
    rw [pages, pages, ← List.map_append, List.range_eq_range', List.range_eq_range', hsplit]
  · intro q hq
    obtain ⟨k, hk, rfl⟩ := List.mem_map.1 hq
    rw [List.mem_range'_1] at hk
    have hlt : k < m := by omega
    exact ⟨rfl, by rw [toNat_ofNat_page hlt hm]; exact hk.1⟩

end TableId

namespace Catalog

/-- How many pages a table has; none if there is no such table. -/
def pageCount (c : Catalog) (i : TableId) : Nat :=
  match c.tables.get? i with
  | none => 0
  | some t => t.numPages.toNat

def pagesOf (c : Catalog) (i : TableId) : List PageId := i.pages (c.pageCount i)

/-- A page that a search goes on to from page `n`: that page, or a new one past the last. -/
inductive Finds (c : Catalog) (i : TableId) (n m : UInt32) (c' : Catalog) : Prop where
  | there : m = n → n.toNat < c.pageCount i → c' = c → Finds c i n m c'
  | grown : c.pageCount i ≤ n.toNat → m.toNat = c.pageCount i →
      (∀ j, c'.pageCount j = if j = i then c.pageCount i + 1 else c.pageCount j) →
      Finds c i n m c'

variable {c c' : Catalog} {i j : TableId} {t : HeapTable} {n m : UInt32} {q : PageId}

theorem pageCount_of_get? (h : c.tables.get? i = some t) : c.pageCount i = t.numPages.toNat := by
  rw [pageCount, h]

theorem pageCount_of_tables (h : c'.tables = c.tables) (i : TableId) :
    c'.pageCount i = c.pageCount i := by
  rw [pageCount, h]
  rfl

theorem pageCount_lt (c : Catalog) (i : TableId) : c.pageCount i < UInt32.size := by
  unfold pageCount
  split
  · decide
  · exact UInt32.toNat_lt _

/-- There is a page after each page of a table, if only a new one. -/
theorem toNat_succ_page (h : n.toNat < c.pageCount i) : (n + 1).toNat = n.toNat + 1 := by
  have hlt := c.pageCount_lt i
  rw [UInt32.toNat_add]
  exact Nat.mod_eq_of_lt (Nat.lt_of_le_of_lt h hlt)

/-- A table stores just the pages that it counts. -/
theorem isSome_stored? : (c.stored? q).isSome = true ↔ q.pageNo.toNat < c.pageCount q.table := by
  unfold stored? pageCount
  cases c.tables.get? q.table with
  | none => simp
  | some t =>
    simp only
    rw [← UInt32.lt_iff_toNat_lt]
    split <;> simp_all

theorem mem_pagesOf : q ∈ c.pagesOf i ↔ q.table = i ∧ q.pageNo.toNat < c.pageCount i :=
  TableId.mem_pages (Nat.le_of_lt (c.pageCount_lt i))

theorem nodup_pagesOf (c : Catalog) (i : TableId) : (c.pagesOf i).Nodup :=
  TableId.nodup_pages (Nat.le_of_lt (c.pageCount_lt i))

theorem pagesOf_eq (hs : c.Sound) (h : c.tables.get? i = some t) : c.pagesOf i = t.pageIds := by
  rw [pagesOf, pageCount_of_get? h, ← hs.id_eq h]
  rfl

theorem pagesOf_congr (h : c'.pageCount i = c.pageCount i) : c'.pagesOf i = c.pagesOf i := by
  rw [pagesOf, pagesOf, h]

theorem pageCount_setFaults {faults : DeviceFaults} (h : c.setFaults j faults = .ok c')
    (i : TableId) : c'.pageCount i = c.pageCount i := by
  obtain ⟨t, ht, rfl⟩ := setFaults_eq_ok h
  unfold pageCount
  rw [OrdMap.get?_insert]
  by_cases hi : i = j
  · subst hi
    rw [if_pos rfl, ht]
    rfl
  · rw [if_neg hi]

theorem pageCount_growTable (hs : c.Sound) (ht : c.tables.get? i = some t) :
    (∃ e c', c.growTable t = (.error e, c') ∧ ∀ j, c'.pageCount j = c.pageCount j) ∨
      ∃ m c', c.growTable t = (.ok m, c') ∧ m.toNat = c.pageCount i ∧
        ∀ j, c'.pageCount j = if j = i then c.pageCount i + 1 else c.pageCount j := by
  rcases growTable_cases c t with ⟨e, h⟩ | ⟨e, h⟩ | ⟨hn, h⟩
  · exact .inl ⟨e, c, h, fun _ => rfl⟩
  · exact .inl ⟨e, _, h, fun _ => rfl⟩
  · refine .inr ⟨_, _, h, (pageCount_of_get? ht).symm, fun j => ?_⟩
    rw [pageCount_of_get? ht, hs.id_eq ht]
    unfold pageCount
    rw [OrdMap.get?_insert]
    by_cases hj : j = i
    · simp only [hj, if_true, HeapTable.numPages]
      rw [UInt32.toNat_add]
      exact Nat.mod_eq_of_lt hn
    · simp only [hj, if_false]

theorem pageOrGrow_finds (hs : c.Sound) (ht : c.tables.get? i = some t) (n : UInt32) :
    (∃ e c', c.pageOrGrow t n = (.error e, c') ∧ ∀ j, c'.pageCount j = c.pageCount j) ∨
      ∃ m c', c.pageOrGrow t n = (.ok m, c') ∧ c.Finds i n m c' := by
  unfold pageOrGrow
  by_cases hn : n < t.numPages
  · rw [if_pos hn]
    refine .inr ⟨n, c, rfl, .there rfl ?_ rfl⟩
    rw [pageCount_of_get? ht]
    exact hn
  · rw [if_neg hn]
    rcases pageCount_growTable hs ht with ⟨e, c', h, hsame⟩ | ⟨m, c', h, hm, hcount⟩
    · exact .inl ⟨e, c', h, hsame⟩
    · refine .inr ⟨m, c', h, .grown ?_ hm hcount⟩
      rw [pageCount_of_get? ht]
      exact Nat.le_of_not_lt hn

/-- Only the table that a search goes through can grow. -/
theorem pageCount_pageOrGrow_of_ne (hs : c.Sound) (ht : c.tables.get? i = some t) (n : UInt32)
    (hj : j ≠ i) : (c.pageOrGrow t n).2.pageCount j = c.pageCount j := by
  rcases pageOrGrow_finds hs ht n with ⟨e, c', h, hsame⟩ | ⟨m, c', h, hfinds⟩
  · rw [h]
    exact hsame j
  · rw [h]
    cases hfinds with
    | there _ _ hc => exact congrArg (fun c : Catalog => c.pageCount j) hc
    | grown _ _ hcount => exact (hcount j).trans (if_neg hj)

namespace Finds

theorem lt_pageCount (h : c.Finds i n m c') : m.toNat < c'.pageCount i := by
  cases h with
  | there hm hn hc =>
    subst hm hc
    exact hn
  | grown _ hm hcount =>
    rw [hcount, if_pos rfl, hm]
    exact Nat.lt_succ_self _

theorem toNat_le (h : c.Finds i n m c') : m.toNat ≤ n.toNat := by
  cases h with
  | there hm _ _ => rw [hm]
  | grown hn hm _ => rwa [hm]

end Finds

end Catalog

namespace Pool

/-- What becomes of a search in its turn: it waits on, it fails, it places its tuple on the page that
it is handed, or it finds that page full and asks for another one. -/
inductive Searches (p : Pool) (c : Call) (tuple : Bytes) :
    Pass Call (Except Error Answer) × Pool → Prop where
  | waits {p'} : p'.catalog = p.catalog → Searches p c tuple (.blocked c, p')
  | fails {e p'} : (∀ i, p'.catalog.pageCount i = p.catalog.pageCount i) →
      Searches p c tuple (.ended (.error e), p')
  | places {page layout slot p'} : p.handed? c = some page →
      p.catalog.layout? c.request.page.table = some layout →
      layout.freeSlot page.data = some slot → p'.catalog = p.catalog →
      Searches p c tuple (.ended (.ok .done), p')
  | passes {page layout m held p'} : p.handed? c = some page →
      p.catalog.layout? c.request.page.table = some layout → layout.freeSlot page.data = none →
      p.catalog.Finds c.request.page.table (c.request.page.pageNo + 1) m p'.catalog →
      Searches p c tuple
        (.blocked ⟨⟨c.request.tid, ⟨c.request.page.table, m⟩, .exclusive⟩, .insert tuple held true⟩,
          p')

/-- Whether a call is a search for room. -/
def IsSearch (c : Call) : Prop := ∃ tuple held install, c.task = .insert tuple held install

variable {p p' : Pool} {c : Call} {t : TransactionId} {i : TableId} {n : UInt32}
  {tuple : Bytes} {held : Bool}

theorem seekRoom_finds (hs : p.catalog.Sound) (t : TransactionId) (i : TableId) (n : UInt32)
    (tuple : Bytes) :
    (∃ e catalog, p.seekRoom t i n tuple true = (.failed e, { p with catalog }) ∧
      ∀ j, catalog.pageCount j = p.catalog.pageCount j) ∨
    ∃ m held catalog, p.seekRoom t i n tuple true =
        (.needs ⟨⟨t, ⟨i, m⟩, .exclusive⟩, .insert tuple held true⟩, { p with catalog }) ∧
      p.catalog.Finds i n m catalog := by
  unfold seekRoom
  cases ht : p.catalog.table i with
  | error e => exact .inl ⟨e, p.catalog, rfl, fun _ => rfl⟩
  | ok heap =>
    rcases Catalog.pageOrGrow_finds hs (Catalog.table_eq_ok.1 ht) n with
      ⟨e, catalog, hgrow, hcount⟩ | ⟨m, catalog, hgrow, hfinds⟩
    · exact .inl ⟨e, catalog, by simp only [hgrow], hcount⟩
    · exact .inr ⟨m, p.locks.holds t ⟨i, m⟩, catalog, by simp only [hgrow], hfinds⟩

/-- One lock request of a search. -/
theorem searches_runCall (hs : p.catalog.Sound) (htask : c.task = .insert tuple held true) :
    Searches p c tuple (p.runCall 1 c) := by
  obtain ⟨r, task⟩ := c
  obtain rfl : task = .insert tuple held true := htask
  rcases ha : p.locks.acquire r with ⟨attempt, locks⟩
  cases attempt with
  | waits =>
    simp only [runCall, ha]
    exact .waits rfl
  | deadlock =>
    simp only [runCall, ha]
    exact .fails fun _ => rfl
  | granted =>
    rcases ho : ({ p with locks } : Pool).obtain r .cache with ⟨found, k⟩
    obtain ⟨-, hcatalog, -⟩ := obtain_frame ho
    have hobtain : ({ p with locks } : Pool).obtain r (Task.insert tuple held true).source =
      (found, k) := ho
    cases found with
    | error e =>
      simp only [runCall, ha, resume, hobtain]
      exact .fails fun _ => by rw [hcatalog]
    | ok page =>
      have hhanded : p.handed? ⟨r, .insert tuple held true⟩ = some page := by
        simp only [handed?, ha, hobtain]
        rfl
      cases hheap : k.catalog.table r.page.table with
      | error e =>
        simp only [runCall, ha, resume, hobtain, hheap, Progress.failed]
        exact .fails fun _ => by rw [hcatalog]
      | ok heap =>
        have hlayout : p.catalog.layout? r.page.table = some heap.layout := by
          rw [hcatalog] at hheap
          exact layout?_of_table hheap
        cases hslot : heap.layout.freeSlot page.data with
        | some slot =>
          rcases hinstall : k.installAll r.tid
            [{ page with data := heap.layout.write page.data slot tuple }] with ⟨result, k'⟩
          have hkept := (installAll_frame k r.tid
            [{ page with data := heap.layout.write page.data slot tuple }]).2
          rw [hinstall] at hkept
          simp only [runCall, ha, resume, hobtain, hheap, continueOn, HeapTable.place?, hslot,
            Option.map_some, deliver, if_true, hinstall]
          cases result with
          | error e => exact .fails fun _ => by rw [hkept, hcatalog]
          | ok u => exact .places hhanded hlayout hslot (hkept.trans hcatalog)
        | none =>
          have hreleased : (if held = true then k else k.releaseLock r.tid r.page).catalog =
              p.catalog := by
            split <;> exact hcatalog
          simp only [runCall, ha, resume, hobtain, hheap, continueOn, HeapTable.place?, hslot,
            Option.map_none]
          rcases seekRoom_finds (hreleased ▸ hs) r.tid r.page.table (r.page.pageNo + 1) tuple with
            ⟨e, catalog, hseek, hcount⟩ | ⟨m, held', catalog, hseek, hfinds⟩
          · rw [hseek]
            refine .fails fun j => ?_
            rw [hcount, hreleased]
          · rw [hseek]
            rw [hreleased] at hfinds
            exact .passes hhanded hlayout hslot hfinds

/-- Other calls leave the store as it is. -/
theorem catalog_runCall (hc : ¬IsSearch c) : (p.runCall 1 c).2.catalog = p.catalog := by
  have hresume (locks : LockTable) :
      (({ p with locks } : Pool).resume c).2.catalog = p.catalog := by
    generalize ho : ({ p with locks } : Pool).resume c = o
    have hcases := resumes { p with locks } c
    rw [ho] at hcases
    cases hcases with
    | stops hobtain _ => exact (obtain_frame hobtain).2.1
    | scans hobtain => exact (obtain_frame hobtain).2.1
    | @installs page k heap edited _ hobtain _ _ hdelivers =>
      have hkept : (k.deliver c.request.tid true [edited]).2.catalog = k.catalog :=
        (installAll_frame k c.request.tid [edited]).2
      rw [hdelivers]
      exact hkept.trans (obtain_frame hobtain).2.1
    | seeks _ htask _ _ => exact absurd ⟨_, _, _, htask⟩ hc
    | @edits page k source edited writes pages _ hobtain _ hpages =>
      rw [hpages]
      exact (installAll_frame k _ _).2.trans (obtain_frame hobtain).2.1
  rcases runCall_one_cases p c with
    ⟨locks, -, hrun | ⟨e, hrun⟩⟩ | ⟨locks, -, ⟨r, p', hr, hrun⟩ | ⟨c', p', hr, hrun⟩⟩
  · rw [hrun]
  · rw [hrun]
  · have hkept := hresume locks
    rw [hr] at hkept
    rwa [hrun]
  · have hkept := hresume locks
    rw [hr] at hkept
    rwa [hrun]

/-- What is no search goes on as none. -/
theorem isSearch_of_blocked {l : Ledger} {pages : List PageId} {c' : Call} (h : p.Agrees l)
    (hc : Waits p l pages c) (hrun : p.runCall 1 c = (.blocked c', p')) (hsearch : IsSearch c') :
    IsSearch c := by
  rcases turn_cases h hc with ⟨c'', k, hrun', -, hgoes, -⟩ | ⟨result, k, hrun', -⟩
  · cases hrun.symm.trans hrun'
    rcases hgoes with rfl | hgoes
    · exact hsearch
    · obtain ⟨tuple, held, install, htask⟩ := hsearch
      rw [htask] at hgoes
      unfold GoesOn at hgoes
      split at hgoes
      · rename_i heq _
        exact ⟨_, _, _, heq⟩
      · contradiction
      · contradiction
  · cases hrun.symm.trans hrun'

/-- How an insert starts: it fails, or asks for the first page of the table. -/
theorem start_insert (hs : p.catalog.Sound) (t : TransactionId) (i : TableId) (tuple : Bytes) :
    (∃ e p', (Command.insert t i tuple).start p = (.failed e, p') ∧
      ∀ j, p'.catalog.pageCount j = p.catalog.pageCount j) ∨
    ∃ layout m held p', (Command.insert t i tuple).start p =
        (.needs ⟨⟨t, ⟨i, m⟩, .exclusive⟩, .insert tuple held true⟩, p') ∧
      p.catalog.layout? i = some layout ∧ tuple.length = layout.tupleSize ∧
      p.catalog.Finds i 0 m p'.catalog := by
  simp only [Command.start, startInsert]
  cases ht : p.catalog.table i with
  | error e => exact .inl ⟨e, p, rfl, fun _ => rfl⟩
  | ok heap =>
    simp only
    by_cases hwidth : tuple.length = heap.layout.tupleSize
    · rw [if_pos hwidth]
      rcases seekRoom_finds hs t i 0 tuple with ⟨e, catalog, h, hcount⟩ | ⟨m, held, catalog, h, hf⟩
      · exact .inl ⟨e, _, h, hcount⟩
      · exact .inr ⟨heap.layout, m, held, _, h, layout?_of_table ht, hwidth, hf⟩
    · rw [if_neg hwidth]
      exact .inl ⟨_, p, rfl, fun _ => rfl⟩

/-- Other calls start without a change. -/
theorem start_other {c : Command} (hc : ∀ t i tuple, c ≠ .insert t i tuple) :
    (c.start p).2 = p := by
  cases c with
  | fetch t page access => rfl
  | insert t i tuple => exact absurd rfl (hc t i tuple)
  | delete t record? =>
    simp only [Command.start, startDelete]
    cases record? with
    | none => rfl
    | some record =>
      simp only [startDeleteFrom]
      cases p.catalog.table record.page.table with
      | error e => rfl
      | ok heap =>
        simp only
        split <;> rfl
  | scan t table =>
    simp only [Command.start, startScan]
    cases p.catalog.table table with
    | error e => rfl
    | ok heap =>
      simp only
      cases heap.pageIds <;> rfl

/-- What a call goes about once it has its first lock. -/
theorem start_task {c : Command} {call : Call} (h : (c.start p).1 = .needs call) :
    match c with
    | .fetch _ _ _ => call.task = .fetch
    | .insert _ _ tuple => ∃ held, call.task = .insert tuple held true
    | .delete _ _ => ∃ slot, call.task = .delete slot true
    | .scan _ _ => ∃ rest, call.task = .scan rest [] := by
  cases c with
  | fetch t page access =>
    obtain rfl := Progress.needs.inj h
    rfl
  | insert t i tuple =>
    simp only [Command.start, startInsert] at h
    cases hheap : p.catalog.table i with
    | error e =>
      rw [hheap] at h
      contradiction
    | ok heap =>
      simp only [hheap] at h
      split at h
      · simp only [seekRoom, hheap] at h
        rcases hgrow : p.catalog.pageOrGrow heap 0 with ⟨found, catalog⟩
        rw [hgrow] at h
        cases found with
        | error e => contradiction
        | ok n =>
          obtain rfl := Progress.needs.inj h
          exact ⟨_, rfl⟩
      · contradiction
  | delete t record? =>
    simp only [Command.start, startDelete] at h
    cases record? with
    | none => contradiction
    | some record =>
      simp only [startDeleteFrom] at h
      cases hheap : p.catalog.table record.page.table with
      | error e =>
        rw [hheap] at h
        contradiction
      | ok heap =>
        simp only [hheap] at h
        split at h
        · obtain rfl := Progress.needs.inj h
          exact ⟨_, rfl⟩
        · contradiction
  | scan t table =>
    simp only [Command.start, startScan] at h
    cases hheap : p.catalog.table table with
    | error e =>
      rw [hheap] at h
      contradiction
    | ok heap =>
      simp only [hheap] at h
      cases hpages : heap.pageIds with
      | nil =>
        rw [hpages] at h
        contradiction
      | cons q rest =>
        rw [hpages] at h
        obtain rfl := Progress.needs.inj h
        exact ⟨rest, rfl⟩

/-- Only an insert searches for room. -/
theorem insert_of_isSearch {c : Command} {call : Call} (h : (c.start p).1 = .needs call)
    (hsearch : IsSearch call) : ∃ t i tuple, c = .insert t i tuple := by
  obtain ⟨tuple, held, install, htask⟩ := hsearch
  have hstart := start_task h
  rw [htask] at hstart
  cases c with
  | insert t i tuple => exact ⟨t, i, tuple, rfl⟩
  | _ => simp at hstart

end Pool

namespace World

variable {w : World} {a : Action} {i : TableId} {other : Pending Call}

/-- Each search that waits has come to a page that its table has. -/
def InRange (w : World) : Prop :=
  ∀ p ∈ w.session.pending, Pool.IsSearch p.call →
    p.call.request.page.pageNo.toNat < w.pool.catalog.pageCount p.call.request.page.table

/-- When a step may add a page to a table: an insert into an empty table starts, or a search has been
handed the last page and it was full. -/
def Grows (w : World) (i : TableId) : Action → Prop
  | .call _ c => (∃ t tuple, c = .insert t i tuple) ∧ w.pool.catalog.pageCount i = 0
  | .turn k => ∃ call page layout, w.session.pending[k]? = some call ∧ Pool.IsSearch call.call ∧
      call.call.request.page.table = i ∧ w.pool.handed? call.call = some page ∧
      w.pool.catalog.layout? i = some layout ∧ layout.freeSlot page.data = none ∧
      w.pool.catalog.pageCount i = call.call.request.page.pageNo.toNat + 1
  | _ => False

/-- A waiting call has waited before, or it has just started, or gone on, and needs a lock. -/
theorem mem_pending_perform (h : other ∈ (w.perform a).session.pending) :
    other ∈ w.session.pending ∨
    (∃ step c call, a = .call step c ∧ other = ⟨step, call⟩ ∧
      c.start w.pool = (.needs call, (w.perform a).pool)) ∨
    ∃ k call c, a = .turn k ∧ w.session.pending[k]? = some call ∧ other = { call with call := c } ∧
      w.pool.runCall 1 call.call = (.blocked c, (w.perform a).pool) := by
  cases a with
  | call step c =>
    simp only [perform, issue] at h ⊢
    rcases hs : c.start w.pool with ⟨progress, p'⟩
    rw [hs] at h
    cases progress with
    | ended result => exact .inl h
    | needs call =>
      rcases List.mem_append.1 h with h | h
      · exact .inl h
      · exact .inr (.inl ⟨step, c, call, rfl, List.mem_singleton.1 h, hs⟩)
  | turn k =>
    cases hk : w.session.pending[k]? with
    | none =>
      rw [show w.perform (.turn k) = w from congrArg Prod.snd (turn_of_absent hk)] at h
      exact .inl h
    | some call =>
      rcases hrun : w.pool.runCall 1 call.call with ⟨pass, p'⟩
      cases pass with
      | ended result =>
        simp only [perform, turn_of_ended hk hrun] at h
        exact .inl (List.mem_of_mem_eraseIdx h)
      | blocked c =>
        simp only [perform, turn_of_blocked hk hrun] at h ⊢
        rcases List.mem_or_eq_of_mem_set h with h | h
        · exact .inl h
        · exact .inr (.inr ⟨k, call, c, rfl, hk, h, hrun⟩)
  | failStore table faults =>
    simp only [perform] at h
    split at h <;> exact .inl h
  | _ => exact .inl h

/-- A search that waits installs what it has found room for. -/
theorem Consistent.search (hw : w.Consistent) (hother : other ∈ w.session.pending)
    (hsearch : Pool.IsSearch other.call) :
    ∃ tuple held, other.call.task = .insert tuple held true := by
  obtain ⟨tuple, held, install, htask⟩ := hsearch
  have hwaits := hw.waits other hother
  simp only [Pool.Waits, htask] at hwaits
  obtain ⟨-, rfl, -⟩ := hwaits
  exact ⟨tuple, held, htask⟩

theorem pageCount_perform (hw : w.Consistent) (hr : w.InRange) (ha : w.Orderly a) (i : TableId) :
    (w.perform a).pool.catalog.pageCount i = w.pool.catalog.pageCount i ∨
      w.Grows i a ∧
        (w.perform a).pool.catalog.pageCount i = w.pool.catalog.pageCount i + 1 := by
  have hs := hw.agrees.catalog
  cases a with
  | begin => exact .inl rfl
  | call step c =>
    rw [show (w.perform (.call step c)).pool = _ from pool_issue w step c]
    by_cases hinsert : ∃ t j tuple, c = .insert t j tuple
    · obtain ⟨t, j, tuple, rfl⟩ := hinsert
      rcases Pool.start_insert hs t j tuple with
        ⟨e, p', h, hcount⟩ | ⟨layout, m, held, p', h, -, -, hfinds⟩
      · rw [h]
        exact .inl (hcount i)
      · rw [h]
        cases hfinds with
        | there _ _ hsame => exact .inl (by rw [hsame])
        | grown hempty _ hcount =>
          by_cases hi : i = j
          · subst hi
            refine .inr ⟨⟨⟨t, tuple, rfl⟩, Nat.le_zero.1 hempty⟩, ?_⟩
            rw [hcount, if_pos rfl]
          · exact .inl ((hcount i).trans (if_neg hi))
    · have hother : ∀ t j tuple, c ≠ .insert t j tuple :=
        fun t j tuple hc => hinsert ⟨t, j, tuple, hc⟩
      rw [Pool.start_other hother]
      exact .inl rfl
  | turn k =>
    cases hk : w.session.pending[k]? with
    | none =>
      rw [show w.perform (.turn k) = w from congrArg Prod.snd (turn_of_absent hk)]
      exact .inl rfl
    | some call =>
      have hcall := List.mem_of_getElem? hk
      rw [show (w.perform (.turn k)).pool = _ from pool_turn hk]
      by_cases hsearch : Pool.IsSearch call.call
      · obtain ⟨tuple, held, htask⟩ := hw.search hcall hsearch
        have hsearches := Pool.searches_runCall hs htask
        generalize w.pool.runCall 1 call.call = o at hsearches
        cases hsearches with
        | waits hsame => exact .inl (by rw [hsame])
        | fails hcount => exact .inl (hcount i)
        | places _ _ _ hsame => exact .inl (by rw [hsame])
        | @passes page layout m held' p' hhanded hlayout hfull hfinds =>
          cases hfinds with
          | there _ _ hsame => exact .inl (by rw [hsame])
          | grown hlast _ hcount =>
            by_cases hi : i = call.call.request.page.table
            · subst hi
              -- the page that was full was the last one
              have hlt := hr call hcall hsearch
              rw [Catalog.toNat_succ_page hlt] at hlast
              refine .inr ⟨⟨call, page, layout, hk, hsearch, rfl, hhanded, hlayout, hfull, by omega⟩, ?_⟩
              rw [hcount, if_pos rfl]
            · exact .inl ((hcount i).trans (if_neg hi))
      · rw [Pool.catalog_runCall hsearch]
        exact .inl rfl
  | complete t commit =>
    exact .inl (Catalog.pageCount_of_tables (Pool.completes w.pool t commit).tables_eq i)
  | flush q => exact .inl (Catalog.pageCount_of_tables (hw.agrees.flush q).2.tables_eq i)
  | flushAll => exact .inl (Catalog.pageCount_of_tables (hw.agrees.flushEach _).2.tables_eq i)
  | flushOf t => exact .inl (Catalog.pageCount_of_tables (hw.agrees.flushEach _).2.tables_eq i)
  | discard q => exact ha.elim
  | releaseLock t q => exact ha.elim
  | failStore table faults =>
    simp only [perform]
    cases hf : w.pool.catalog.setFaults table faults with
    | error e => exact .inl rfl
    | ok catalog => exact .inl (Catalog.pageCount_setFaults hf i)
  | failLog refuses forceFails => exact .inl rfl

/-- No table loses pages. -/
theorem pageCount_le_perform (hw : w.Consistent) (hr : w.InRange) (ha : w.Orderly a) (i : TableId) :
    w.pool.catalog.pageCount i ≤ (w.perform a).pool.catalog.pageCount i := by
  rcases pageCount_perform hw hr ha i with h | ⟨-, h⟩
  · exact Nat.le_of_eq h.symm
  · exact h ▸ Nat.le_succ _

theorem InRange.perform (hr : w.InRange) (hw : w.Consistent) (ha : w.Orderly a) :
    (w.perform a).InRange := by
  intro other hother hsearch
  rcases mem_pending_perform hother with
    hother | ⟨step, c, call, rfl, rfl, hstart⟩ | ⟨k, call, c, rfl, hk, rfl, hrun⟩
  · exact Nat.lt_of_lt_of_le (hr other hother hsearch) (pageCount_le_perform hw hr ha _)
  · obtain ⟨t, j, tuple, rfl⟩ := Pool.insert_of_isSearch (by rw [hstart]) hsearch
    rcases Pool.start_insert hw.agrees.catalog t j tuple with
      ⟨e, p', h, -⟩ | ⟨layout, m, held, p', h, -, -, hfinds⟩
    · cases hstart.symm.trans h
    · obtain ⟨hcall, hpool⟩ := Prod.mk.inj (hstart.symm.trans h)
      obtain rfl := Progress.needs.inj hcall
      rw [hpool]
      exact hfinds.lt_pageCount
  · have hcall := List.mem_of_getElem? hk
    have hold := Pool.isSearch_of_blocked hw.agrees (hw.waits call hcall) hrun hsearch
    obtain ⟨tuple, held, htask⟩ := hw.search hcall hold
    have hsearches := Pool.searches_runCall hw.agrees.catalog htask
    rw [hrun] at hsearches
    cases hsearches with
    | waits hsame =>
      simp only [hsame]
      exact hr call hcall hold
    | passes _ _ _ hfinds => exact hfinds.lt_pageCount

theorem inRange_ofPool (p : Pool) : (ofPool p).InRange := nofun

theorem Reaches.inRange {rule : World → Action → Prop} {start : World}
    (hreach : Reaches rule start w) (hrule : ∀ w a, rule w a → w.Orderly a)
    (hstart : start.Consistent) (hr : start.InRange) : w.InRange := by
  induction hreach with
  | refl => exact hr
  | step hreach ha ih => exact ih.perform (hreach.consistent hrule hstart) (hrule _ _ ha)

end World

end PagePool
