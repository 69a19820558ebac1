import PagePool.Proofs.Pool.Attempts
import PagePool.Proofs.Pool.Passes

namespace PagePool

namespace TableId

theorem pages_succ (i : TableId) (m : UInt32) :
    i.pages (m.toNat + 1) = i.pages m.toNat ++ [⟨i, m⟩] := by
  rw [pages, pages, List.range_succ, List.map_append, List.map_singleton, UInt32.ofNat_toNat]

theorem isPrefix_pages (i : TableId) {n m : Nat} (h : n ≤ m) : i.pages n <+: i.pages m := by
  have htake : List.range n = (List.range m).take n := by
    rw [List.take_range, Nat.min_eq_left h]
  rw [pages, pages, htake, List.map_take]
  exact List.take_prefix n _

end TableId

namespace Pool

/-! A call on its own, without a bound on its turns. -/

/-- The call fetches these pages one after the other, and then has ended or has to wait for the lock
of the next one. -/
inductive RunsOver : Pool → Call → List PageId → Pass Call (Except Error Answer) × Pool → Prop where
  | waits {p c locks} : p.locks.acquire c.request = (.waits, locks) →
      RunsOver p c [] (.blocked c, { p with locks })
  | ends {p c result p'} : p.runCall 1 c = (.ended result, p') →
      RunsOver p c [c.request.page] (.ended result, p')
  | goesOn {p c locks c' p' pages o} : p.locks.acquire c.request = (.granted, locks) →
      p.runCall 1 c = (.blocked c', p') → RunsOver p' c' pages o →
      RunsOver p c (c.request.page :: pages) o

/-- How a search for room ends, and over which pages: before a page for whose lock it has to wait, at
a page that it fails to fetch, past the last page as it fails to add one, or at a page where it has
put its tuple into the first free slot. It has come to each of its pages over full ones only. -/
inductive SearchEnds (p : Pool) (t : TransactionId) (i : TableId) (layout : Layout) (tuple : Bytes) :
    (install : Bool) → List PageId → Pass Call (Except Error Answer) × Pool → Prop where
  | waits {k m added held locks install} : Seeks p k i layout m added →
      k.locks.acquire ⟨t, ⟨i, m⟩, .exclusive⟩ = (.waits, locks) →
      SearchEnds p t i layout tuple install (i.pages m.toNat)
        (.blocked ⟨⟨t, ⟨i, m⟩, .exclusive⟩, .insert tuple held install⟩, { k with locks })
  | failsToFetch {k m added e k' install} : Seeks p k i layout m added →
      k.runCall 1 ⟨⟨t, ⟨i, m⟩, .exclusive⟩, .fetch⟩ = (.ended (.error e), k') →
      k'.catalog = k.catalog →
      SearchEnds p t i layout tuple install (i.pages (m.toNat + 1)) (.ended (.error e), k')
  | failsToGrow {k heap cause catalog install} :
      Searched p k i layout (p.catalog.pageCount i) → k.catalog.table i = .ok heap →
      k.catalog.growTable heap = (.error (.io cause), catalog) →
      (∀ j, catalog.pageCount j = p.catalog.pageCount j) →
      SearchEnds p t i layout tuple install (i.pages (p.catalog.pageCount i))
        (.ended (.error (.io cause)), { k with catalog })
  | installs {k m added slot p'} : Seeks p k i layout m added →
      p.Takes i layout ⟨⟨i, m⟩, slot⟩ added → p.Edits p' i added ⟨⟨i, m⟩, slot⟩ (some tuple) →
      SearchEnds p t i layout tuple true (i.pages (m.toNat + 1)) (.ended (.ok .done), p')
  | handsOver {k m added slot k'} {page : Page} : Seeks p k i layout m added →
      p.Takes i layout ⟨⟨i, m⟩, UInt16.ofNat slot⟩ added → SameContents (some i) p k' →
      k'.catalog = k.catalog → k'.newest? ⟨i, m⟩ = some page.data → page.id = ⟨i, m⟩ →
      layout.freeSlot page.data = some slot →
      SearchEnds p t i layout tuple false (i.pages (m.toNat + 1))
        (.ended (.ok (.pages [{ page with data := layout.write page.data slot tuple }])), k')

variable {p k k' p' : Pool} {c c' : Call} {t : TransactionId} {i : TableId} {layout : Layout}
  {heap : HeapTable} {page : Page} {m n : UInt32} {added : Nat} {tuple : Bytes} {install held : Bool}
  {pages visited : List PageId} {result : Except Error Answer} {locks : LockTable}
  {o : Pass Call (Except Error Answer) × Pool}

theorem runCall_of_waits (ha : p.locks.acquire c.request = (.waits, locks)) (fuel : Nat) :
    p.runCall (fuel + 1) c = (.blocked c, { p with locks }) := by
  simp only [runCall, ha]

theorem runCall_of_ended (h : p.runCall 1 c = (.ended result, p')) (fuel : Nat) :
    p.runCall (fuel + 1) c = (.ended result, p') := by
  rcases runCall_succ fuel p c with hsame | ⟨c', k, hfirst, -⟩
  · rw [hsame, h]
  · cases h.symm.trans hfirst

theorem runCall_of_granted (ha : p.locks.acquire c.request = (.granted, locks))
    (h : p.runCall 1 c = (.blocked c', p')) (fuel : Nat) :
    p.runCall (fuel + 1) c = p'.runCall fuel c' := by
  simp only [runCall, ha] at h ⊢
  rcases hr : ({ p with locks } : Pool).resume c with ⟨progress, k⟩
  rw [hr] at h
  cases progress with
  | ended result => cases h
  | needs c' =>
    cases h
    rfl

namespace RunsOver

/-- Any bound that is higher than the number of fetches does not matter. -/
theorem runCall_eq (h : RunsOver p c pages o) {fuel : Nat} (hfuel : pages.length < fuel) :
    p.runCall fuel c = o := by
  induction h generalizing fuel with
  | waits ha =>
    obtain ⟨fuel, rfl⟩ := Nat.exists_eq_succ_of_ne_zero (Nat.ne_of_gt hfuel)
    exact runCall_of_waits ha fuel
  | ends hrun =>
    obtain ⟨fuel, rfl⟩ := Nat.exists_eq_succ_of_ne_zero (Nat.ne_of_gt (Nat.zero_lt_of_lt hfuel))
    exact runCall_of_ended hrun fuel
  | goesOn ha hrun _ ih =>
    obtain ⟨fuel, rfl⟩ := Nat.exists_eq_succ_of_ne_zero (Nat.ne_of_gt (Nat.zero_lt_of_lt hfuel))
    rw [runCall_of_granted ha hrun]
    exact ih (Nat.lt_of_succ_lt_succ hfuel)

/-- A call goes only one way. -/
theorem unique {pages' : List PageId} {o' : Pass Call (Except Error Answer) × Pool}
    (h : RunsOver p c pages o) (h' : RunsOver p c pages' o') : pages' = pages ∧ o' = o := by
  induction h generalizing pages' o' with
  | waits ha =>
    cases h' with
    | waits ha' =>
      cases ha.symm.trans ha'
      exact ⟨rfl, rfl⟩
    | ends hrun => cases (runCall_of_waits ha 0).symm.trans hrun
    | goesOn ha' _ _ => cases ha.symm.trans ha'
  | ends hrun =>
    cases h' with
    | waits ha => cases (runCall_of_waits ha 0).symm.trans hrun
    | ends hrun' =>
      cases hrun.symm.trans hrun'
      exact ⟨rfl, rfl⟩
    | goesOn _ hrun' _ => cases hrun.symm.trans hrun'
  | goesOn ha hrun _ ih =>
    cases h' with
    | waits ha' => cases ha.symm.trans ha'
    | ends hrun' => cases hrun.symm.trans hrun'
    | goesOn _ hrun' hrest =>
      cases hrun.symm.trans hrun'
      obtain ⟨rfl, rfl⟩ := ih hrest
      exact ⟨rfl, rfl⟩

end RunsOver

/-- What a call that has begun so fetches, and what it comes to. -/
def Runs (begun : Progress × Pool) (visited : List PageId)
    (o : Pass Call (Except Error Answer) × Pool) : Prop :=
  match begun with
  | (.ended result, p) => visited = [] ∧ o = (.ended result, p)
  | (.needs c, p) => RunsOver p c visited o

/-- The first pass of a call that has begun so. -/
def firstPass (begun : Progress × Pool) : Pass Call (Except Error Answer) × Pool :=
  match begun with
  | (.ended result, p) => (.ended result, p)
  | (.needs c, p) => p.pass c

theorem Runs.unique {begun : Progress × Pool} {visited' : List PageId}
    {o' : Pass Call (Except Error Answer) × Pool} (h : Runs begun visited o)
    (h' : Runs begun visited' o') : visited' = visited ∧ o' = o := by
  obtain ⟨progress, p⟩ := begun
  cases progress with
  | ended result =>
    obtain ⟨rfl, rfl⟩ := h
    exact h'
  | needs c => exact RunsOver.unique h h'

/-! The search of an insert. -/

theorem runCall_fetch_of_refused (ha : p.locks.acquire c.request = (.deadlock, locks)) :
    p.runCall 1 ⟨c.request, .fetch⟩ =
      (.ended (.error (.transactionAborted c.request.tid)), { p with locks }) := by
  simp only [runCall, ha]

theorem runCall_fetch_of_failsToLoad {e : Error} (h : p.FailsToLoad c e k) :
    p.runCall 1 ⟨c.request, .fetch⟩ = (.ended (.error e), k) ∧ k.catalog = p.catalog := by
  obtain ⟨locks, ha, hread⟩ := h
  refine ⟨?_, (read_frame hread).2.1⟩
  simp only [runCall, ha, resume, obtain, Task.source, hread, Progress.failed]

/-- What a call is handed does not depend on what it goes on with. -/
theorem Granted.with_task {r : LockRequest} {task : Task} (h : p.Granted ⟨r, task⟩ k heap page)
    (task' : Task) : p.Granted ⟨r, task'⟩ k heap page :=
  ⟨h.locks_eq, h.same, h.backed, h.catalog_eq, h.table_eq, h.cached⟩

/-- A search that finds no page has gone past the last one, and the table fails to grow. -/
theorem Searched.failsToGrow {e : Error} (h : Searched p k i layout n.toNat)
    (hl : p.catalog.layout? i = some layout)
    (hseek : k.seekRoom t i n tuple install = (.failed e, p')) :
    ∃ heap catalog, n.toNat = p.catalog.pageCount i ∧ k.catalog.table i = .ok heap ∧
      k.catalog.growTable heap = (.error e, catalog) ∧ p' = { k with catalog } ∧
      ∀ j, catalog.pageCount j = p.catalog.pageCount j := by
  obtain ⟨heap, hheap, -⟩ := Option.map_eq_some_iff.1 hl
  have hcount := Catalog.pageCount_of_get? hheap
  rw [← h.catalog_eq] at hheap
  have htable : k.catalog.table i = .ok heap := Catalog.table_eq_ok.2 hheap
  simp only [Pool.seekRoom, htable] at hseek
  rcases Catalog.pageOrGrow_finds h.backed.intact.catalog hheap n with
    ⟨e', catalog, hgrow, hpages⟩ | ⟨m, catalog, hgrow, -⟩
  · rw [hgrow] at hseek
    cases hseek
    unfold Catalog.pageOrGrow at hgrow
    split at hgrow
    · cases hgrow
    · rename_i hlast
      refine ⟨heap, catalog, Nat.le_antisymm h.le ?_, htable, hgrow, rfl, ?_⟩
      · rw [hcount]
        exact Nat.le_of_not_lt hlast
      · rwa [h.catalog_eq] at hpages
  · rw [hgrow] at hseek
    cases hseek

namespace Seeks

theorem le (h : Seeks p k i layout m added) : m.toNat ≤ p.catalog.pageCount i := by
  cases h with
  | there _ hm => exact Nat.le_of_lt hm
  | grown _ _ _ _ _ hm => exact Nat.le_of_eq hm

/-- The pages before the one that the search has come to are full. -/
theorem full (h : Seeks p k i layout m added) {r : RecordId} (hr : p.HasSlot i layout r)
    (hlt : r.page.pageNo.toNat < m.toNat) : p.tupleAt? r ≠ none := by
  cases h with
  | there h _ => exact h.full r hr hlt
  | grown hall _ _ _ _ _ => exact hall r hr

theorem added_le (h : Seeks p k i layout m added) : added ≤ 1 := by
  cases h <;> decide

/-- A page that has just been added has room. -/
theorem freeSlot_new (hp : p.Backed) (hl : p.catalog.layout? i = some layout)
    (h : Seeks p k i layout m 1) {d : Bytes} (hd : k.newest? ⟨i, m⟩ = some d) :
    layout.freeSlot d = some 0 := by
  rw [newest?_eq_zeros hp h hd]
  exact Layout.freeSlot_zeros (hp.intact.catalog.forPage_eq hl) _

/-- On a page with a free slot the search is over. -/
theorem placed (hp : p.Backed) (hl : p.catalog.layout? i = some heap.layout)
    (hwidth : tuple.length = heap.layout.tupleSize) (h : Seeks p k i heap.layout m added)
    (hgranted : k.Granted ⟨⟨t, ⟨i, m⟩, .exclusive⟩, .insert tuple held install⟩ k' heap page)
    {slot : Nat} (hslot : heap.layout.freeSlot page.data = some slot) :
    ∃ result p', k'.continueOn ⟨t, ⟨i, m⟩, .exclusive⟩ heap page (.insert tuple held install) =
        (.ended result, p') ∧
      SearchEnds p t i heap.layout tuple install (i.pages (m.toNat + 1)) (.ended result, p') := by
  have htakes := h.takes hp hl hgranted.newest?_eq hslot
  cases install with
  | true =>
    have hinstalled := hgranted.with_task (.insert tuple held true)
    exact ⟨_, _, hgranted.continueOn_insert rfl rfl hslot,
      .installs h htakes (h.edits hl hwidth hinstalled hslot)⟩
  | false =>
    have hnewest : k'.newest? ⟨i, m⟩ = some page.data := by
      rw [newest?_eq, visible?_of_cached hgranted.cached]
      rfl
    refine ⟨_, k', ?_, .handsOver h htakes (h.same.trans hgranted.same.mono) hgranted.catalog_eq
      hnewest hgranted.id_eq hslot⟩
    simp only [continueOn, HeapTable.place?, hslot, Option.map_some, deliver,
      Bool.false_eq_true, if_false]

/-- A search that has come to a page goes on from there to its end. -/
theorem runs (hp : p.Backed) (hl : p.catalog.layout? i = some layout)
    (hwidth : tuple.length = layout.tupleSize) (hroom : p.catalog.pageCount i + 1 < UInt32.size)
    (h : Seeks p k i layout m added) (t : TransactionId) (held install : Bool) :
    ∃ pages o, RunsOver k ⟨⟨t, ⟨i, m⟩, .exclusive⟩, .insert tuple held install⟩ pages o ∧
      SearchEnds p t i layout tuple install (i.pages m.toNat ++ pages) o := by
  -- on the pages that are still to come
  induction hleft : p.catalog.pageCount i - m.toNat using Nat.strong_induction_on
    generalizing k m added held with
  | _ left ih =>
    have hstops {result : Except Error Answer} {p' : Pool}
        (hrun : k.runCall 1 ⟨⟨t, ⟨i, m⟩, .exclusive⟩, .insert tuple held install⟩ =
          (.ended result, p'))
        (hends : SearchEnds p t i layout tuple install (i.pages (m.toNat + 1))
          (.ended result, p')) :
        ∃ pages o, RunsOver k ⟨⟨t, ⟨i, m⟩, .exclusive⟩, .insert tuple held install⟩ pages o ∧
          SearchEnds p t i layout tuple install (i.pages m.toNat ++ pages) o := by
      rw [TableId.pages_succ] at hends
      exact ⟨[⟨i, m⟩], _, .ends hrun, hends⟩
    have hrequests := requests (c := ⟨⟨t, ⟨i, m⟩, .exclusive⟩, .insert tuple held install⟩)
      h.backed rfl 0
    generalize hrun : k.runCall 1 ⟨⟨t, ⟨i, m⟩, .exclusive⟩, .insert tuple held install⟩ = o
      at hrequests
    cases hrequests with
    | waits ha =>
      refine ⟨[], _, .waits ha, ?_⟩
      rw [List.append_nil]
      exact .waits h ha
    | refused ha => exact hstops hrun (.failsToFetch h (runCall_fetch_of_refused ha) rfl)
    | fails hfails =>
      obtain ⟨hfetch, hcatalog⟩ := runCall_fetch_of_failsToLoad hfails
      exact hstops hrun (.failsToFetch h hfetch hcatalog)
    | @goesOn k' heap page _ hgranted ho =>
      obtain rfl : heap.layout = layout := by
        have hheap := hgranted.layout_eq
        rw [h.layout_eq, hl] at hheap
        exact (Option.some.inj hheap).symm
      subst ho
      cases hslot : heap.layout.freeSlot page.data with
      | some slot =>
        obtain ⟨result, p', hcontinue, hends⟩ := h.placed hp hl hwidth hgranted hslot
        rw [hcontinue] at hrun
        exact hstops hrun hends
      | none =>
        have hinstalled := hgranted.with_task (.insert tuple held true)
        obtain ⟨hpast, hnext⟩ := h.passes hp hl hinstalled hslot
        simp only [continueOn, HeapTable.place?, hslot, Option.map_none] at hrun
        rcases hpast.seekRoom hl hwidth t install with
          ⟨cause, p', hseek⟩ | ⟨p', hseek, hlimit⟩ | ⟨held', added', p', hseek, hseeks⟩
        · obtain ⟨grown, catalog, hlast, htable, hgrow, rfl, hcount⟩ := hpast.failsToGrow hl hseek
          rw [hseek] at hrun
          rw [hnext] at hlast
          refine hstops hrun ?_
          rw [hlast]
          exact .failsToGrow (hlast ▸ hnext ▸ hpast) htable hgrow hcount
        · cases hlimit with
          | findsNoPage _ hlimit _ _ => exact absurd hlimit (Nat.ne_of_lt hroom)
        · rw [hseek] at hrun
          have hle := hseeks.le
          have hless : p.catalog.pageCount i - (m + 1).toNat < left := by omega
          obtain ⟨pages, o, hruns, hends⟩ := ih _ hless hseeks held' rfl
          refine ⟨⟨i, m⟩ :: pages, o, .goesOn hgranted.locks_eq hrun hruns, ?_⟩
          rwa [hnext, TableId.pages_succ, List.append_assoc] at hends

end Seeks

namespace SearchEnds

variable (h : SearchEnds p t i layout tuple install visited o)
include h

/-- Pages are visited in order, and at most one that was not there before. -/
theorem visited_isPrefix : visited <+: i.pages (p.catalog.pageCount i + 1) := by
  cases h with
  | waits h _ => exact i.isPrefix_pages (Nat.le_succ_of_le h.le)
  | failsToFetch h _ _ => exact i.isPrefix_pages (Nat.succ_le_succ h.le)
  | failsToGrow _ _ _ _ => exact i.isPrefix_pages (Nat.le_succ _)
  | installs h _ _ => exact i.isPrefix_pages (Nat.succ_le_succ h.le)
  | handsOver h _ _ _ _ _ _ => exact i.isPrefix_pages (Nat.succ_le_succ h.le)

/-- No slot is free on the pages that are visited before the last one. -/
theorem full {r : RecordId} (hr : p.HasSlot i layout r) (hmem : r.page ∈ visited.dropLast) :
    p.tupleAt? r ≠ none := by
  have hpassed {k : Pool} {m : UInt32} {added : Nat} (h : Seeks p k i layout m added)
      (hmem : r.page ∈ i.pages m.toNat) : p.tupleAt? r ≠ none :=
    h.full hr ((TableId.mem_pages (Nat.le_of_lt m.toNat_lt)).1 hmem).2
  have hlast {m : UInt32} (hmem : r.page ∈ (i.pages (m.toNat + 1)).dropLast) :
      r.page ∈ i.pages m.toNat := by
    rwa [TableId.pages_succ, List.dropLast_concat] at hmem
  cases h with
  | waits h _ => exact hpassed h (List.dropLast_subset _ hmem)
  | failsToFetch h _ _ => exact hpassed h (hlast hmem)
  | failsToGrow h _ _ _ => exact h.all r hr
  | installs h _ _ => exact hpassed h (hlast hmem)
  | handsOver h _ _ _ _ _ _ => exact hpassed h (hlast hmem)

/-- The table has grown by one page at most, and no other table has changed its size. -/
theorem pageCount_eq : ∃ added ≤ 1, ∀ j,
    o.2.catalog.pageCount j = p.catalog.pageCount j + if j = i then added else 0 := by
  cases h with
  | waits h _ => exact ⟨_, h.added_le, h.pageCount_eq⟩
  | failsToFetch h _ hcatalog => exact ⟨_, h.added_le, by simpa only [hcatalog] using h.pageCount_eq⟩
  | failsToGrow _ _ _ hcount =>
    refine ⟨0, Nat.zero_le 1, fun j => ?_⟩
    rw [ite_self, Nat.add_zero]
    exact hcount j
  | installs h _ hedits => exact ⟨_, h.added_le, hedits.pageCount_eq⟩
  | handsOver h _ _ hcatalog _ _ _ =>
    exact ⟨_, h.added_le, by simpa only [hcatalog] using h.pageCount_eq⟩

end SearchEnds

/-- An insert of a tuple of the table's width searches for room to the end, and its first pass is long
enough for that. -/
theorem startInsert_runs (hp : p.Backed) (hl : p.catalog.layout? i = some layout)
    (hwidth : tuple.length = layout.tupleSize) (hroom : p.catalog.pageCount i + 1 < UInt32.size)
    (t : TransactionId) (install : Bool) :
    ∃ visited o, Runs (p.startInsert t i tuple install) visited o ∧
      firstPass (p.startInsert t i tuple install) = o ∧
      SearchEnds p t i layout tuple install visited o := by
  obtain ⟨heap, hheap, rfl⟩ := Option.map_eq_some_iff.1 hl
  have htable : p.catalog.table i = .ok heap := Catalog.table_eq_ok.2 hheap
  have hbegun : Searched p p i heap.layout (0 : UInt32).toNat :=
    ⟨.refl p, hp, rfl, Nat.zero_le _, fun _ _ hn => absurd hn (Nat.not_lt_zero _)⟩
  simp only [startInsert, htable, hwidth, if_true]
  rcases hbegun.seekRoom hl hwidth t install with
    ⟨cause, k, hseek⟩ | ⟨k, hseek, hlimit⟩ | ⟨held, added, k, hseek, hseeks⟩
  · obtain ⟨grown, catalog, hempty, htable, hgrow, rfl, hcount⟩ := hbegun.failsToGrow hl hseek
    have hnone : i.pages (p.catalog.pageCount i) = [] := by
      rw [← hempty]
      rfl
    rw [hseek]
    refine ⟨[], _, ⟨rfl, rfl⟩, rfl, ?_⟩
    rw [← hnone]
    exact .failsToGrow (hempty ▸ hbegun) htable hgrow hcount
  · cases hlimit with
    | findsNoPage _ hlimit _ _ => exact absurd hlimit (Nat.ne_of_lt hroom)
  · rw [hseek]
    obtain ⟨visited, o, hruns, hends⟩ := hseeks.runs hp hl hwidth hroom t held install
    have hends : SearchEnds p t i heap.layout tuple install visited o := hends
    refine ⟨visited, o, hruns, hruns.runCall_eq ?_, hends⟩
    have hlength := hends.visited_isPrefix.length_le
    rw [TableId.length_pages] at hlength
    simp only [lockBound_eq, Task.length, hseeks.pageCount_eq, if_true]
    omega

end Pool

namespace World

variable {w : World} {rule : World → Action → Prop} {p : Pool} {capacity : Nat} {catalog : Catalog}
  {journal : Journal} {i : TableId} {layout : Layout}

/-- An insert into a table that can still be counted after one more page searches for room and comes to
an end, whatever the pages of the table hold. It fetches them in order from the first one on, and leaves
only full ones behind. It adds one page at most, which has room, so it fetches one page at most that
was not there before. If it need not wait for a lock, it fails to fetch the page it has come to or to
add one, or it has placed its tuple there. A tuple of another width starts no search. -/
theorem insert_search_ends (hs : catalog.Sound)
    (hp : Pool.make capacity catalog journal = .ok p) (hr : Reaches rule (ofPool p) w)
    (hl : w.pool.catalog.layout? i = some layout)
    (hroom : w.pool.catalog.pageCount i + 1 < UInt32.size) (t : TransactionId) (tuple : Bytes)
    (install : Bool) :
    (tuple.length ≠ layout.tupleSize → w.pool.startInsert t i tuple install =
      (.failed (.tupleSizeMismatch layout.tupleSize tuple.length), w.pool)) ∧
    (tuple.length = layout.tupleSize →
      (∃ visited o, Pool.Runs (w.pool.startInsert t i tuple install) visited o) ∧
      ∀ visited o, Pool.Runs (w.pool.startInsert t i tuple install) visited o →
        Pool.firstPass (w.pool.startInsert t i tuple install) = o ∧
        visited <+: i.pages (w.pool.catalog.pageCount i + 1) ∧
        visited.length ≤ w.pool.catalog.pageCount i + 1 ∧
        (∀ r, w.pool.HasSlot i layout r → r.page ∈ visited.dropLast → w.pool.tupleAt? r ≠ none) ∧
        (∃ added ≤ 1, ∀ j, o.2.catalog.pageCount j =
          w.pool.catalog.pageCount j + if j = i then added else 0) ∧
        w.pool.SearchEnds t i layout tuple install visited o) ∧
    ∀ k m d, w.pool.Seeks k i layout m 1 → k.newest? ⟨i, m⟩ = some d →
      layout.freeSlot d = some 0 := by
  have hbacked := hr.backed (sturdy_ofPool hs hp) (Pool.backed_make hs hp)
  refine ⟨fun hwidth => ?_, fun hwidth => ?_, fun k m d h hd => h.freeSlot_new hbacked hl hd⟩
  · obtain ⟨heap, hheap, rfl⟩ := Option.map_eq_some_iff.1 hl
    simp only [Pool.startInsert, Catalog.table_eq_ok.2 hheap, if_neg hwidth]
  · obtain ⟨visited, o, hruns, hpass, hends⟩ :=
      Pool.startInsert_runs hbacked hl hwidth hroom t install
    refine ⟨⟨visited, o, hruns⟩, fun visited' o' hruns' => ?_⟩
    obtain ⟨rfl, rfl⟩ := hruns.unique hruns'
    have hvisited := hends.visited_isPrefix
    have hlength := hvisited.length_le
    rw [TableId.length_pages] at hlength
    exact ⟨hpass, hvisited, hlength, fun r => hends.full, hends.pageCount_eq, hends⟩

/-- Transaction 1 has stored a tuple on the only page of its table, and has committed. -/
def oneCommitted : World :=
  (ofPool onePage).performAll
    [.call 0 (.insert ⟨1⟩ ⟨1⟩ [7]), .turn 0, .complete ⟨1⟩ true]

/-- The one page of the table is full, so the search goes past it to a new page. -/
theorem search_past_full_page :
    ∃ visited o, Pool.Runs (oneCommitted.pool.startInsert ⟨2⟩ ⟨1⟩ [8] true) visited o ∧
      visited <+: [⟨⟨1⟩, 0⟩, ⟨⟨1⟩, 1⟩] ∧ o.1 = .ended (.ok .done) ∧
      o.2.catalog.pageCount ⟨1⟩ = 2 := by
  have hreaches : Reaches (fun _ _ => True) (ofPool onePage) oneCommitted :=
    Reaches.refl.performAll ⟨trivial, trivial, trivial, trivial⟩
  have hlayout : oneCommitted.pool.catalog.layout? ⟨1⟩ = some ⟨1, 1⟩ := rfl
  obtain ⟨-, hsearch, -⟩ := insert_search_ends Catalog.sound_oneSlot make_onePage hreaches hlayout
    (by decide) ⟨2⟩ [8] true
  obtain ⟨⟨visited, o, hruns⟩, hfound⟩ := hsearch rfl
  obtain ⟨hpass, hvisited, -⟩ := hfound visited o hruns
  refine ⟨visited, o, hruns, hvisited, ?_, ?_⟩ <;> rw [← hpass] <;> rfl

end World

end PagePool
