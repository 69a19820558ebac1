import PagePool.Proofs.Pool.Granted

namespace PagePool

namespace Catalog

variable {c c' : Catalog} {t : HeapTable} {n : UInt32} {q : PageId} {e : Error}

/-- Only the device keeps a page that is there from being read. -/
theorem readPage_error (hs : c.Sound) (hstored : (c.stored? q).isSome = true)
    (h : c.readPage q = .error e) : ∃ cause, e = .io cause := by
  obtain ⟨d, hd⟩ := Option.isSome_iff_exists.1 hstored
  obtain ⟨heap, hheap, hn, -⟩ := stored?_eq_some.1 hd
  by_cases hdev : heap.faults.reads.contains q.pageNo = true
  · simp only [readPage, table_eq_ok.2 hheap, HeapTable.readPage, hdev, if_true] at h
    exact ⟨_, (Except.error.inj h).symm⟩
  · rw [Bool.not_eq_true] at hdev
    rw [readPage_of_table hheap (hs.id_eq hheap) (hs.fits hheap) hn hdev] at h
    contradiction

/-- A search finds no page if the device refuses to add one, or all page numbers are used up. -/
theorem pageOrGrow_error (h : c.pageOrGrow t n = (.error e, c')) :
    (∃ cause, e = .io cause) ∨
      e = .misuse ∧ t.numPages.toNat ≤ n.toNat ∧ t.numPages.toNat + 1 = UInt32.size := by
  unfold pageOrGrow at h
  split at h
  · cases h
  · rename_i hn
    unfold growTable HeapTable.grow PageFile.allocate at h
    split at h
    · rename_i hgrow
      split at hgrow
      · cases hgrow
        cases h
        exact .inl ⟨_, rfl⟩
      · split at hgrow
        · rename_i hallocate
          split at hallocate
          · cases hallocate
          · rename_i hlimit
            cases hallocate
            cases hgrow
            cases h
            have hlt : t.numPages.toNat < UInt32.size := UInt32.toNat_lt _
            exact .inr ⟨rfl, Nat.le_of_not_lt hn, Nat.le_antisymm hlt (Nat.le_of_not_lt hlimit)⟩
        · cases hgrow
    · cases h

end Catalog

/-- A call with its first pass. -/
def Command.attempt (c : Command) (p : Pool) : Pass Call (Except Error Answer) × Pool :=
  match c.start p with
  | (.ended result, p) => (.ended result, p)
  | (.needs call, p) => p.pass call

namespace Pool

/-- What keeps a call from its work: it waits for a lock, it is refused one as the wait would close a
cycle, the device fails, or no cached page may go. -/
inductive Hindered (t : TransactionId) : Pass Call (Except Error Answer) × Pool → Prop where
  | waits {k : Pool} {c : Call} {locks} : c.request.tid = t →
      k.locks.acquire c.request = (.waits, locks) → Hindered t (.blocked c, { k with locks })
  | refused {k : Pool} {r : LockRequest} {locks} : r.tid = t →
      k.locks.acquire r = (.deadlock, locks) →
      Hindered t (.ended (.error (.transactionAborted t)), { k with locks })
  | device {cause k} : Hindered t (.ended (.error (.io cause)), k)
  | exhausted {capacity k} : Hindered t (.ended (.error (.storageExhausted capacity)), k)

/-- The record id that an insert takes, and how many pages it adds: the first one that is free, or the
first one of a new page if none is. -/
inductive Takes (p : Pool) (i : TableId) (layout : Layout) : RecordId → Nat → Prop where
  | free {r} : p.HasSlot i layout r → p.tupleAt? r = none →
      (∀ r', p.HasSlot i layout r' → p.tupleAt? r' = none → r' = r ∨ r.Before r') →
      Takes p i layout r 0
  | added {n : UInt32} : (∀ r, p.HasSlot i layout r → p.tupleAt? r ≠ none) →
      n.toNat = p.catalog.pageCount i → Takes p i layout ⟨⟨i, n⟩, 0⟩ 1

/-- How an insert ends that nothing hinders: its tuple has been stored, or there is no slot for it and
all page numbers are used up. -/
inductive Inserts (p : Pool) (i : TableId) (layout : Layout) (tuple : Bytes) :
    Pass Call (Except Error Answer) × Pool → Prop where
  | stores {r added p'} : p.Takes i layout r added → p.Edits p' i added r (some tuple) →
      Inserts p i layout tuple (.ended (.ok .done), p')
  | findsNoPage {p'} : (∀ r, p.HasSlot i layout r → p.tupleAt? r ≠ none) →
      p.catalog.pageCount i + 1 = UInt32.size → SameContents none p p' →
      p'.tupleAt? = p.tupleAt? → Inserts p i layout tuple (.ended (.error .misuse), p')

/-- How a delete ends that nothing hinders. -/
inductive Deletes (p : Pool) : Option RecordId → Pass Call (Except Error Answer) × Pool → Prop where
  | neverStored : Deletes p none (.ended (.error .missingRecordId), p)
  | noTable {r} : p.catalog.layout? r.page.table = none →
      Deletes p (some r) (.ended (.error (.tableNotFound r.page.table)), p)
  | noPage {r layout} : p.catalog.layout? r.page.table = some layout →
      r.page ∉ p.catalog.pagesOf r.page.table →
      Deletes p (some r) (.ended (.error (.pageNotFound r.page)), p)
  | noTuple {r p'} : r.page ∈ p.catalog.pagesOf r.page.table → p.tupleAt? r = none →
      SameContents none p p' → p'.tupleAt? = p.tupleAt? →
      Deletes p (some r) (.ended (.error (.tupleNotFound r)), p')
  | removes {r d p'} : p.tupleAt? r = some d → p.Edits p' r.page.table 0 r none →
      Deletes p (some r) (.ended (.ok .done), p')

variable {p p' k : Pool} {c : Call} {t : TransactionId} {i : TableId} {layout : Layout}
  {q : PageId} {r : RecordId} {page : Page} {heap : HeapTable} {m n : UInt32} {added : Nat}
  {tuple d : Bytes}

/-- In a session a call that starts makes its attempt. -/
theorem start_eq_attempt (s : Session Pool Call) (step : Nat) (c : Command) :
    start s step (c.start s.state) =
      match c.attempt s.state with
      | (.ended result, p) => (some result, { s with state := p })
      | (.blocked call, p) => (none, ⟨p, s.pending ++ [⟨step, call⟩]⟩) := by
  unfold start Command.attempt
  rcases c.start s.state with ⟨progress, p⟩
  cases progress with
  | ended result => rfl
  | needs call =>
    simp only [Session.submit]
    rcases p.pass call with ⟨o, p'⟩
    cases o <;> rfl

theorem makeRoom_error {e : Error} (h : p.makeRoom = .error e) :
    ∃ capacity, e = .storageExhausted capacity := by
  unfold makeRoom evict at h
  split at h
  · contradiction
  · split at h
    · exact ⟨_, (Except.error.inj h).symm⟩
    · contradiction

/-- Only the device and a full cache keep a page that is there from being handed out. -/
theorem read_error {e : Error} (h : p.Backed) (hstored : (p.catalog.stored? q).isSome = true)
    (hr : p.read t q = (.error e, k)) :
    (∃ cause, e = .io cause) ∨ ∃ capacity, e = .storageExhausted capacity := by
  cases hq : p.pages.get? q with
  | some page =>
    simp only [read, hq] at hr
    cases hr
  | none =>
    rw [read_of_absent hq] at hr
    cases hroom : (p.afterMiss t).makeRoom with
    | error e' =>
      rw [hroom] at hr
      cases hr
      exact .inr (makeRoom_error hroom)
    | ok made =>
      have hcatalog : made.catalog = p.catalog := by
        rcases makeRoom_eq_ok hroom with rfl | he
        · rfl
        · obtain ⟨victim, -, rfl⟩ := evict_eq_ok he
          rfl
      simp only [hroom, hcatalog] at hr
      cases hread : p.catalog.readPage q with
      | ok stored =>
        simp only [hread] at hr
        cases hr
      | error e' =>
        simp only [hread] at hr
        cases hr
        exact .inl (Catalog.readPage_error h.intact.catalog hstored hread)

/-- A request for a page that is there: the call is hindered, or it is handed the page and goes on. -/
theorem request_cases (h : p.Backed) (hsource : c.task.source = .cache)
    (hstored : (p.catalog.stored? c.request.page).isSome = true) (fuel : Nat) :
    Hindered c.request.tid (p.runCall (fuel + 1) c) ∨
      ∃ k heap page, p.Granted c k heap page ∧ p.runCall (fuel + 1) c =
        match k.continueOn c.request heap page c.task with
        | (.ended result, p) => (.ended result, p)
        | (.needs c, p) => p.runCall fuel c := by
  have hrequests := requests h hsource fuel
  generalize p.runCall (fuel + 1) c = o at hrequests ⊢
  cases hrequests with
  | waits ha => exact .inl (.waits rfl ha)
  | refused ha => exact .inl (.refused rfl ha)
  | fails hfails =>
    obtain ⟨locks, -, hread⟩ := hfails
    rcases read_error (h.locks locks) hstored hread with ⟨cause, rfl⟩ | ⟨capacity, rfl⟩
    · exact .inl .device
    · exact .inl .exhausted
  | goesOn hgranted ho => exact .inr ⟨_, _, _, hgranted, ho⟩

namespace Granted

theorem tuplesOn_eq (h : p.Granted c k heap page) :
    heap.tuplesOn page = p.tuplesOf c.request.page := by
  rw [tuplesOf_eq h.layout_eq h.newest?_eq, ← h.id_eq]
  rfl

theorem forPage_eq (h : p.Granted c k heap page) :
    Layout.forPage page.data.length heap.layout.tupleSize = .ok heap.layout := by
  have hsound := h.backed.intact.catalog
  rw [(h.backed.intact.whole h.cached).1]
  exact hsound.forPage_eq (h.catalog_eq ▸ h.layout_eq)

theorem tupleAt?_eq (h : p.Granted c k heap page) (hr : r.page = c.request.page) :
    p.tupleAt? r = heap.layout.tuple? page.data r.slot.toNat :=
  Pool.tupleAt?_eq (hr ▸ h.layout_eq) (hr ▸ h.newest?_eq)

end Granted

/-! Scans. -/

/-- A scan goes through the pages that it has still to read. -/
theorem scan_runs (h : p.Backed) {rest : List PageId} {found : List StoredTuple}
    (hpages : ∀ r ∈ q :: rest, (p.catalog.stored? r).isSome = true) {fuel : Nat}
    (hfuel : rest.length < fuel) :
    Hindered t (p.runCall fuel ⟨⟨t, q, .shared⟩, .scan rest found⟩) ∨
      ∃ p', p.runCall fuel ⟨⟨t, q, .shared⟩, .scan rest found⟩ =
          (.ended (.ok (.tuples (found ++ (q :: rest).flatMap p.tuplesOf))), p') ∧
        SameContents none p p' ∧ p'.catalog = p.catalog := by
  -- on the pages still to come, with the pool of each page and what has been found before it
  induction rest generalizing p q found fuel with
  | nil =>
    obtain ⟨fuel, rfl⟩ := Nat.exists_eq_succ_of_ne_zero (Nat.ne_of_gt hfuel)
    rcases request_cases (c := ⟨⟨t, q, .shared⟩, .scan [] found⟩) h rfl
      (hpages q (List.mem_singleton_self q)) fuel with
      hhindered | ⟨k, heap, page, hgranted, hrun⟩
    · exact .inl hhindered
    · refine .inr ⟨k, ?_, hgranted.same, hgranted.catalog_eq⟩
      rw [hrun]
      simp only [continueOn, scanNext, hgranted.tuplesOn_eq, List.flatMap_singleton]
  | cons q' rest ih =>
    obtain ⟨fuel, rfl⟩ := Nat.exists_eq_succ_of_ne_zero (Nat.ne_of_gt (Nat.zero_lt_of_lt hfuel))
    obtain ⟨hfirst, hothers⟩ := List.forall_mem_cons.1 hpages
    rcases request_cases (c := ⟨⟨t, q, .shared⟩, .scan (q' :: rest) found⟩) h rfl hfirst fuel with
      hhindered | ⟨k, heap, page, hgranted, hrun⟩
    · exact .inl hhindered
    · rw [hrun]
      simp only [continueOn, scanNext, hgranted.tuplesOn_eq]
      have hstored : ∀ r ∈ q' :: rest, (k.catalog.stored? r).isSome = true := fun r hr =>
        hgranted.catalog_eq ▸ hothers r hr
      rcases ih hgranted.backed hstored (Nat.lt_of_succ_lt_succ hfuel) with
        hhindered | ⟨p', hended, hsame, hcatalog⟩
      · exact .inl hhindered
      · refine .inr ⟨p', ?_, hgranted.same.trans hsame, hcatalog.trans hgranted.catalog_eq⟩
        have htuples : k.tuplesOf = p.tuplesOf :=
          hgranted.same.tuplesOf_eq (by rw [hgranted.catalog_eq])
        rw [hended, htuples, List.flatMap_cons, List.flatMap_cons, List.flatMap_cons,
          List.append_assoc]

/-! Searches for room. -/

/-- A search has gone past the first `n` pages of its table, and no slot of theirs is free. -/
structure Searched (p k : Pool) (i : TableId) (layout : Layout) (n : Nat) : Prop where
  same : SameContents none p k
  backed : k.Backed
  catalog_eq : k.catalog = p.catalog
  le : n ≤ p.catalog.pageCount i
  full : ∀ r, p.HasSlot i layout r → r.page.pageNo.toNat < n → p.tupleAt? r ≠ none

/-- A search has come to page `m`, which its table has had before or has now been added. -/
inductive Seeks (p k : Pool) (i : TableId) (layout : Layout) (m : UInt32) : Nat → Prop where
  | there : Searched p k i layout m.toNat → m.toNat < p.catalog.pageCount i →
      Seeks p k i layout m 0
  | grown : (∀ r, p.HasSlot i layout r → p.tupleAt? r ≠ none) → SameContents (some i) p k →
      k.Backed → k.catalog.layout? = p.catalog.layout? →
      (∀ j, k.catalog.pageCount j = p.catalog.pageCount j + if j = i then 1 else 0) →
      m.toNat = p.catalog.pageCount i → Seeks p k i layout m 1

/-- What the search has seen stays so when locks are taken and pages are read. -/
theorem Searched.of_same {found : Nat} (h : Searched p k i layout found) (hsame : SameContents none k p')
    (hbacked : p'.Backed) (hcatalog : p'.catalog = k.catalog) : Searched p p' i layout found :=
  ⟨h.same.trans hsame, hbacked, hcatalog.trans h.catalog_eq, h.le, h.full⟩

/-- When all pages have been searched, no slot is free. -/
theorem Searched.all (h : Searched p k i layout (p.catalog.pageCount i)) (r : RecordId)
    (hr : p.HasSlot i layout r) : p.tupleAt? r ≠ none :=
  h.full r hr (Catalog.mem_pagesOf.1 hr.1).2

/-- A search that goes on is hindered by the device, comes to the next page or to a new one, or finds
all page numbers used up. -/
theorem Searched.seekRoom (h : Searched p k i layout n.toNat)
    (hl : p.catalog.layout? i = some layout) (hwidth : tuple.length = layout.tupleSize)
    (t : TransactionId) (install : Bool) :
    (∃ cause k', k.seekRoom t i n tuple install = (.failed (.io cause), k')) ∨
    (∃ k', k.seekRoom t i n tuple install = (.failed .misuse, k') ∧
      Inserts p i layout tuple (.ended (.error .misuse), k')) ∨
    ∃ held added k', k.seekRoom t i n tuple install =
        (.needs ⟨⟨t, ⟨i, n⟩, .exclusive⟩, .insert tuple held install⟩, k') ∧
      Seeks p k' i layout n added := by
  have hfits : ∀ layout', k.catalog.layout? i = some layout' →
      tuple.length = layout'.tupleSize := by
    intro layout' hl'
    rw [h.catalog_eq, hl] at hl'
    rwa [← Option.some.inj hl']
  obtain ⟨hsilent, -⟩ := StepsSilently.seekRoom h.backed.intact hfits t n install
  have hsame := SameContents.seekRoom h.backed t i n tuple install
  obtain ⟨heap, hheap, rfl⟩ := Option.map_eq_some_iff.1 hl
  rw [← h.catalog_eq] at hheap
  have htable : k.catalog.table i = .ok heap := Catalog.table_eq_ok.2 hheap
  have hcount : heap.numPages.toNat = p.catalog.pageCount i := by
    rw [← h.catalog_eq, Catalog.pageCount_of_get? hheap]
  simp only [Pool.seekRoom, htable] at hsilent hsame ⊢
  rcases Catalog.pageOrGrow_finds h.backed.intact.catalog hheap n with
    ⟨e, catalog, hgrow, hpages⟩ | ⟨m, catalog, hgrow, hfinds⟩
  · rw [hgrow] at hsilent hsame ⊢
    have hbacked := h.backed.of_cache hsilent.intact id id hsame.stored_of_some
    rcases Catalog.pageOrGrow_error hgrow with ⟨cause, rfl⟩ | ⟨rfl, hle, hlimit⟩
    · exact .inl ⟨cause, _, rfl⟩
    · have hlast : n.toNat = p.catalog.pageCount i := Nat.le_antisymm h.le (hcount ▸ hle)
      have hnone : SameContents none p { k with catalog } :=
        h.same.trans (hsame.of_pageCount hbacked hpages)
      refine .inr (.inl ⟨_, rfl, .findsNoPage (hlast ▸ h).all (hcount ▸ hlimit) hnone ?_⟩)
      exact hnone.tupleAt?_eq (hsilent.layout_eq.trans (by rw [h.catalog_eq]))
  · rw [hgrow] at hsilent hsame ⊢
    have hbacked := h.backed.of_cache hsilent.intact id id hsame.stored_of_some
    refine .inr (.inr ?_)
    cases hfinds with
    | there hm hn hc =>
      subst hm hc
      refine ⟨_, 0, _, rfl, .there ?_ (h.catalog_eq ▸ hn)⟩
      exact ⟨h.same, h.backed, h.catalog_eq, h.le, h.full⟩
    | grown hn hm hpages =>
      rw [h.catalog_eq] at hn hm hpages
      have hlast : n.toNat = p.catalog.pageCount i := Nat.le_antisymm h.le hn
      obtain rfl : m = n := UInt32.toNat_inj.1 (hm.trans hlast.symm)
      refine ⟨_, 1, _, rfl, .grown (hlast ▸ h).all (h.same.mono.trans hsame) hbacked ?_ ?_ hm⟩
      · exact hsilent.layout_eq.trans (by rw [h.catalog_eq])
      · intro j
        rw [hpages]
        split
        · rename_i hj
          rw [hj]
        · rfl

namespace Seeks

theorem same (h : Seeks p k i layout m added) : SameContents (some i) p k := by
  cases h with
  | there h _ => exact h.same.mono
  | grown _ hsame _ _ _ _ => exact hsame

theorem backed (h : Seeks p k i layout m added) : k.Backed := by
  cases h with
  | there h _ => exact h.backed
  | grown _ _ hbacked _ _ _ => exact hbacked

theorem layout_eq (h : Seeks p k i layout m added) : k.catalog.layout? = p.catalog.layout? := by
  cases h with
  | there h _ => rw [h.catalog_eq]
  | grown _ _ _ hlayout _ _ => exact hlayout

theorem pageCount_eq (h : Seeks p k i layout m added) (j : TableId) :
    k.catalog.pageCount j = p.catalog.pageCount j + if j = i then added else 0 := by
  cases h with
  | there h _ => rw [h.catalog_eq, ite_self, Nat.add_zero]
  | grown _ _ _ _ hcount _ => exact hcount j

/-- The table has the page that the search has come to. -/
theorem isSome_stored? (h : Seeks p k i layout m added) :
    (k.catalog.stored? ⟨i, m⟩).isSome = true := by
  rw [Catalog.isSome_stored?, h.pageCount_eq]
  cases h with
  | there _ hm => simpa using hm
  | grown _ _ _ _ _ hm => simp [hm]

/-- Only the page that the search has come to can be new. -/
theorem visible?_eq (h : Seeks p k i layout m added) (hne : q ≠ ⟨i, m⟩) :
    k.visible? q = p.visible? q := by
  cases h with
  | there h _ => exact h.same.visible_of_none q
  | grown _ hsame hbacked _ hcount hm =>
    refine (hsame.visible_eq q).resolve_right ?_
    rintro ⟨hi, hnone, hzeros⟩
    obtain rfl : q.table = i := Option.some.inj hi
    have hnew := Catalog.isSome_stored?.1 (hbacked.isSome_stored? hzeros)
    rw [hcount, if_pos rfl, ← hm] at hnew
    have hold : ¬ q.pageNo.toNat < m.toNat := by
      rw [hm, ← Catalog.isSome_stored?]
      intro hstored
      obtain ⟨d, hd⟩ := exists_newest? hstored
      rw [newest?_eq, hnone] at hd
      contradiction
    refine hne (PageId.eq_of_toNat rfl ?_)
    simp only
    omega

/-- A new page is empty. -/
theorem newest?_eq_zeros (hp : p.Backed) (h : Seeks p k i layout m 1)
    (hd : k.newest? ⟨i, m⟩ = some d) : d = Bytes.zeros p.catalog.pageSize := by
  cases h with
  | grown _ hsame _ _ _ hm =>
    rcases hsame.newest?_eq ⟨i, m⟩ with hold | ⟨-, -, hzeros⟩
    · have hstored := Catalog.isSome_stored?.1 (hp.stored_of_newest? (hold.symm.trans hd))
      simp only [hm] at hstored
      exact absurd hstored (Nat.lt_irrefl _)
    · exact Option.some.inj (hd.symm.trans hzeros)

/-- The first free slot of the page is the one that the insert takes. -/
theorem takes (hp : p.Backed) (h : Seeks p k i layout m added)
    (hl : p.catalog.layout? i = some layout) (hd : k.newest? ⟨i, m⟩ = some d) {slot : Nat}
    (hslot : layout.freeSlot d = some slot) :
    p.Takes i layout ⟨⟨i, m⟩, UInt16.ofNat slot⟩ added := by
  have hfits := hp.intact.catalog.forPage_eq hl
  cases h with
  | grown hfull hsame hbacked hlayout hcount hm =>
    have hzeros := newest?_eq_zeros hp (.grown hfull hsame hbacked hlayout hcount hm) hd
    rw [hzeros, Layout.freeSlot_zeros hfits] at hslot
    obtain rfl := Option.some.inj hslot
    exact .added hfull hm
  | there h hm =>
    have hlt := Layout.lt_slots_of_freeSlot hslot
    have hnumber := Layout.toNat_ofNat_slot hfits hlt
    have hnewest : p.newest? ⟨i, m⟩ = some d := by
      rw [newest?_eq, ← h.same.visible_of_none, ← newest?_eq]
      exact hd
    have hat {r : RecordId} (hr : r.page = ⟨i, m⟩) :
        p.tupleAt? r = layout.tuple? d r.slot.toNat :=
      tupleAt?_eq (by rw [hr]; exact hl) (by rw [hr]; exact hnewest)
    refine .free ⟨Catalog.mem_pagesOf.2 ⟨rfl, hm⟩, by rwa [hnumber]⟩ ?_ fun r hr hnone => ?_
    · rw [hat rfl, Layout.tuple?_eq_none, hnumber]
      exact Layout.isUsed_of_freeSlot hslot
    · have hpage : r.page.table = i := (Catalog.mem_pagesOf.1 hr.1).1
      rcases Nat.lt_trichotomy r.page.pageNo.toNat m.toNat with hbefore | hsame | hafter
      · exact absurd hnone (h.full r hr hbefore)
      · -- on the page itself the slots before the first free one are used
        have hr' : r.page = ⟨i, m⟩ := PageId.eq_of_toNat hpage hsame
        rw [hat hr', Layout.tuple?_eq_none] at hnone
        rcases Nat.lt_trichotomy r.slot.toNat slot with hless | heq | hmore
        · rw [Layout.isUsed_of_lt_freeSlot hslot hless] at hnone
          contradiction
        · refine .inl ?_
          obtain ⟨q, s⟩ := r
          obtain rfl : q = ⟨i, m⟩ := hr'
          obtain rfl : s = UInt16.ofNat slot := UInt16.toNat_inj.1 (heq.trans hnumber.symm)
          rfl
        · refine .inr (.inr ⟨by rw [hr'], ?_⟩)
          rw [UInt16.lt_iff_toNat_lt, hnumber]
          exact hmore
      · exact .inr (.inl hafter)

/-- A page without a free slot is an old one, and the search has gone past it. -/
theorem searched (hp : p.Backed) (h : Seeks p k i layout m added)
    (hl : p.catalog.layout? i = some layout) (hd : k.newest? ⟨i, m⟩ = some d)
    (hfull : layout.freeSlot d = none) :
    Searched p k i layout (m + 1).toNat ∧ (m + 1).toNat = m.toNat + 1 := by
  cases h with
  | grown hall hsame hbacked hlayout hcount hm =>
    have hzeros := newest?_eq_zeros hp (.grown hall hsame hbacked hlayout hcount hm) hd
    rw [hzeros, Layout.freeSlot_zeros (hp.intact.catalog.forPage_eq hl)] at hfull
    contradiction
  | there h hm =>
    have hnext := Catalog.toNat_succ_page hm
    refine ⟨⟨h.same, h.backed, h.catalog_eq, by omega, fun r hr hn => ?_⟩, hnext⟩
    by_cases hlast : r.page.pageNo.toNat < m.toNat
    · exact h.full r hr hlast
    · have hr' : r.page = ⟨i, m⟩ :=
        PageId.eq_of_toNat (Catalog.mem_pagesOf.1 hr.1).1 (by simp only; omega)
      have hnewest : p.newest? r.page = some d := by
        rw [newest?_eq, ← h.same.visible_of_none, ← newest?_eq, hr']
        exact hd
      rw [tupleAt?_eq (by rw [hr']; exact hl) hnewest, Ne, Layout.tuple?_eq_none,
        Layout.freeSlot_eq_none.1 hfull _ hr.2]
      nofun

/-- A tuple that is written into a free slot of the page is the only one that has come. -/
theorem edits (h : Seeks p k i heap.layout m added) (hl : p.catalog.layout? i = some heap.layout)
    (hwidth : tuple.length = heap.layout.tupleSize) {held : Bool} {slot : Nat}
    (hgranted : k.Granted ⟨⟨t, ⟨i, m⟩, .exclusive⟩, .insert tuple held true⟩ p' heap page)
    (hslot : heap.layout.freeSlot page.data = some slot) :
    p.Edits (p'.addDirty t { page with data := heap.layout.write page.data slot tuple }) i added
      ⟨⟨i, m⟩, UInt16.ofNat slot⟩ (some tuple) := by
  have hlt := Layout.lt_slots_of_freeSlot hslot
  have hnumber := Layout.toNat_ofNat_slot hgranted.forPage_eq hlt
  refine edits_addDirty (h.same.trans hgranted.same.mono) ?_ (fun q hne => ?_) ?_
    hgranted.cached hl hgranted.id_eq (fun j => ?_) t
  · rw [hgranted.catalog_eq, h.layout_eq]
  · exact (hgranted.same.visible_of_none q).trans (h.visible?_eq hne)
  · rw [hgranted.catalog_eq]
    exact h.pageCount_eq
  · rw [hnumber]
    exact Layout.tuple?_write hgranted.forPage_eq hlt hwidth j

/-- The tuple goes into the page that the search has come to, if a slot is free there. -/
theorem stores (hp : p.Backed) (h : Seeks p k i heap.layout m added)
    (hl : p.catalog.layout? i = some heap.layout) (hwidth : tuple.length = heap.layout.tupleSize)
    {held : Bool} {slot : Nat}
    (hgranted : k.Granted ⟨⟨t, ⟨i, m⟩, .exclusive⟩, .insert tuple held true⟩ p' heap page)
    (hslot : heap.layout.freeSlot page.data = some slot) :
    Inserts p i heap.layout tuple (.ended (.ok .done),
      p'.addDirty t { page with data := heap.layout.write page.data slot tuple }) :=
  .stores (h.takes hp hl hgranted.newest?_eq hslot) (h.edits hl hwidth hgranted hslot)

/-- The search goes past the page if it is full, and gives its lock back or keeps it. -/
theorem passes (hp : p.Backed) (h : Seeks p k i heap.layout m added)
    (hl : p.catalog.layout? i = some heap.layout) {held : Bool}
    (hgranted : k.Granted ⟨⟨t, ⟨i, m⟩, .exclusive⟩, .insert tuple held true⟩ p' heap page)
    (hslot : heap.layout.freeSlot page.data = none) :
    Searched p (if held = true then p' else p'.releaseLock t ⟨i, m⟩) i heap.layout (m + 1).toNat ∧
      (m + 1).toNat = m.toNat + 1 := by
  obtain ⟨hpast, hnext⟩ := h.searched hp hl hgranted.newest?_eq hslot
  refine ⟨?_, hnext⟩
  cases held with
  | true => exact hpast.of_same hgranted.same hgranted.backed hgranted.catalog_eq
  | false =>
    have hreleased : SameContents none p' (p'.releaseLock t ⟨i, m⟩) := .of_cache rfl rfl rfl
    exact hpast.of_same (hgranted.same.trans hreleased) (hgranted.backed.locks _)
      hgranted.catalog_eq

end Seeks

/-- A search goes on until it has room for its tuple. -/
theorem search_runs (hp : p.Backed) (hl : p.catalog.layout? i = some layout)
    (hwidth : tuple.length = layout.tupleSize) (h : Seeks p k i layout m added) {held : Bool}
    {fuel : Nat} (hfuel : p.catalog.pageCount i < m.toNat + fuel) :
    Hindered t (k.runCall fuel ⟨⟨t, ⟨i, m⟩, .exclusive⟩, .insert tuple held true⟩) ∨
      Inserts p i layout tuple
        (k.runCall fuel ⟨⟨t, ⟨i, m⟩, .exclusive⟩, .insert tuple held true⟩) := by
  -- each turn ends the search or takes it one page on, and a page past the last one has room
  induction fuel generalizing k m added held with
  | zero =>
    cases h with
    | there _ hm => exact absurd hfuel (Nat.lt_asymm hm)
    | grown _ _ _ _ _ hm => exact absurd hfuel (by rw [hm]; exact Nat.lt_irrefl _)
  | succ fuel ih =>
    rcases request_cases (c := ⟨⟨t, ⟨i, m⟩, .exclusive⟩, .insert tuple held true⟩) h.backed rfl
      h.isSome_stored? fuel with hhindered | ⟨k', heap, page, hgranted, hrun⟩
    · exact .inl hhindered
    · obtain rfl : heap.layout = layout := by
        have hheap := hgranted.layout_eq
        rw [h.layout_eq, hl] at hheap
        exact (Option.some.inj hheap).symm
      rw [hrun]
      cases hslot : heap.layout.freeSlot page.data with
      | some slot =>
        rw [hgranted.continueOn_insert rfl rfl hslot]
        exact .inr (h.stores hp hl hwidth hgranted hslot)
      | none =>
        obtain ⟨hpast, hnext⟩ := h.passes hp hl hgranted hslot
        simp only [continueOn, HeapTable.place?, hslot, Option.map_none]
        rcases hpast.seekRoom hl hwidth t true with
          ⟨cause, p', hseek⟩ | ⟨p', hseek, hlimit⟩ | ⟨held', added', p', hseek, hseeks⟩
        · rw [hseek]
          exact .inl .device
        · rw [hseek]
          exact .inr hlimit
        · rw [hseek]
          exact ih hseeks (by omega)

/-! Attempts. -/

theorem lockBound_eq (p : Pool) (c : Call) :
    p.lockBound c = c.task.length + p.catalog.pageCount c.request.page.table + 2 := by
  unfold lockBound Catalog.numPages Catalog.table Catalog.pageCount
  cases p.catalog.tables.get? c.request.page.table <;> rfl

theorem scan_attempt (h : p.Backed) (hl : p.catalog.layout? i = some layout) (t : TransactionId) :
    Hindered t ((Command.scan t i).attempt p) ∨
      ∃ p', (Command.scan t i).attempt p = (.ended (.ok (.tuples (p.tableTuples i))), p') ∧
        SameContents none p p' ∧ p'.tupleAt? = p.tupleAt? := by
  obtain ⟨heap, hheap, rfl⟩ := Option.map_eq_some_iff.1 hl
  have htable : p.catalog.table i = .ok heap := Catalog.table_eq_ok.2 hheap
  have hpages := Catalog.pagesOf_eq h.intact.catalog hheap
  simp only [Command.attempt, Command.start, startScan, htable, tableTuples]
  rw [← hpages]
  cases hall : p.catalog.pagesOf i with
  | nil => exact .inr ⟨p, rfl, .refl p, rfl⟩
  | cons q rest =>
    have hstored : ∀ r ∈ q :: rest, (p.catalog.stored? r).isSome = true := by
      intro r hr
      rw [← hall] at hr
      obtain ⟨rfl, hn⟩ := Catalog.mem_pagesOf.1 hr
      exact Catalog.isSome_stored?.2 hn
    have hfuel : rest.length < p.lockBound ⟨⟨t, q, .shared⟩, .scan rest []⟩ := by
      simp only [lockBound_eq, Task.length]
      omega
    refine (scan_runs h hstored hfuel).imp_right ?_
    rintro ⟨p', hended, hsame, hcatalog⟩
    exact ⟨p', hended, hsame, hsame.tupleAt?_eq (by rw [hcatalog])⟩

theorem insert_attempt (h : p.Backed) (hl : p.catalog.layout? i = some layout)
    (hwidth : tuple.length = layout.tupleSize) (t : TransactionId) :
    Hindered t ((Command.insert t i tuple).attempt p) ∨
      Inserts p i layout tuple ((Command.insert t i tuple).attempt p) := by
  obtain ⟨heap, hheap, rfl⟩ := Option.map_eq_some_iff.1 hl
  have htable : p.catalog.table i = .ok heap := Catalog.table_eq_ok.2 hheap
  simp only [Command.attempt, Command.start, startInsert, htable, hwidth, if_true]
  have hbegun : Searched p p i heap.layout (0 : UInt32).toNat :=
    ⟨.refl p, h, rfl, Nat.zero_le _, fun _ _ hn => absurd hn (Nat.not_lt_zero _)⟩
  rcases hbegun.seekRoom hl hwidth t true with
    ⟨cause, p', hseek⟩ | ⟨p', hseek, hlimit⟩ | ⟨held, added, p', hseek, hseeks⟩
  · rw [hseek]
    exact .inl .device
  · rw [hseek]
    exact .inr hlimit
  · rw [hseek]
    refine search_runs h hl hwidth hseeks ?_
    simp only [lockBound_eq, Task.length, hseeks.pageCount_eq]
    omega

/-- A delete that is handed the page takes its tuple away, or says that there is none. -/
theorem Granted.deletes (h : p.Granted ⟨⟨t, r.page, .exclusive⟩, .delete r.slot true⟩ k heap page)
    (hr : r.page ∈ p.catalog.pagesOf r.page.table) (fuel : Nat) :
    p.Deletes (some r)
      (match k.continueOn ⟨t, r.page, .exclusive⟩ heap page (.delete r.slot true) with
      | (.ended result, p) => (.ended result, p)
      | (.needs c, p) => p.runCall fuel c) := by
  have hat := h.tupleAt?_eq (r := r) rfl
  cases hremove : heap.remove? page r.slot with
  | none =>
    have hunused : heap.layout.isUsed page.data r.slot.toNat = false := by
      unfold HeapTable.remove? at hremove
      split at hremove
      · contradiction
      · simp_all
    simp only [continueOn, hremove, Progress.failed]
    refine .noTuple hr (hat.trans (Layout.tuple?_eq_none.2 hunused)) h.same ?_
    exact h.same.tupleAt?_eq (by rw [h.catalog_eq])
  | some edited =>
    rw [h.continueOn_edited rfl hremove]
    unfold HeapTable.remove? at hremove
    split at hremove
    · rename_i hused
      obtain rfl := Option.some.inj hremove
      refine .removes (hat.trans (Layout.tuple?_eq_some.2 ⟨hused, rfl⟩)) ?_
      refine edits_addDirty h.same.mono (by rw [h.catalog_eq])
        (fun q _ => h.same.visible_of_none q) (fun j => ?_) h.cached h.layout_eq ?_
        (fun j => ?_) t
      · rw [h.catalog_eq, ite_self, Nat.add_zero]
      · exact h.id_eq
      · exact Layout.tuple?_clear h.forPage_eq (Layout.lt_slots_of_isUsed hused) j
    · contradiction

theorem delete_attempt (h : p.Backed) (t : TransactionId) (record? : Option RecordId) :
    Hindered t ((Command.delete t record?).attempt p) ∨
      p.Deletes record? ((Command.delete t record?).attempt p) := by
  simp only [Command.attempt, Command.start, startDelete]
  cases record? with
  | none => exact .inr .neverStored
  | some r =>
    simp only [startDeleteFrom]
    cases htable : p.catalog.table r.page.table with
    | error e =>
      obtain ⟨hnone, rfl⟩ := Catalog.table_eq_error htable
      exact .inr (.noTable (by rw [Catalog.layout?, hnone]; rfl))
    | ok heap =>
      have hheap := Catalog.table_eq_ok.1 htable
      have hpages := Catalog.mem_pagesOf (c := p.catalog) (q := r.page) (i := r.page.table)
      rw [Catalog.pageCount_of_get? hheap, ← UInt32.lt_iff_toNat_lt] at hpages
      simp only [h.intact.catalog.id_eq hheap, true_and]
      by_cases hn : r.page.pageNo < heap.numPages
      · have hmem : r.page ∈ p.catalog.pagesOf r.page.table := hpages.2 ⟨rfl, hn⟩
        have hstored := Catalog.isSome_stored?.2 (Catalog.mem_pagesOf.1 hmem).2
        rw [if_pos hn]
        simp only [pass, lockBound_eq]
        rcases request_cases (c := ⟨⟨t, r.page, .exclusive⟩, .delete r.slot true⟩) h rfl hstored _ with
          hhindered | ⟨k, heap', page, hgranted, hrun⟩
        · exact .inl hhindered
        · rw [hrun]
          exact .inr (hgranted.deletes hmem _)
      · rw [if_neg hn]
        exact .inr (.noPage (layout?_of_table htable) fun hmem => hn (hpages.1 hmem).2)

/-- An insert that succeeds has stored its tuple under the record id that it takes. -/
theorem Inserts.stored {o : Pass Call (Except Error Answer) × Pool}
    (h : p.Inserts i layout tuple o) (hok : o.1 = .ended (.ok .done)) :
    ∃ r added, p.Takes i layout r added ∧ p.Edits o.2 i added r (some tuple) := by
  cases h with
  | stores htakes hedits => exact ⟨_, _, htakes, hedits⟩
  | findsNoPage => cases hok

/-- A delete that succeeds has taken away the tuple that it names. -/
theorem Deletes.removed {o : Pass Call (Except Error Answer) × Pool}
    (h : p.Deletes (some r) o) (hok : o.1 = .ended (.ok .done)) :
    p.Edits o.2 r.page.table 0 r none := by
  cases h with
  | removes _ hedits => exact hedits
  | _ => cases hok

/-- No record id of the table stands before its first slot, which is taken while it is free. -/
theorem Takes.eq_first (h : p.Takes i layout r added) (hslot : p.HasSlot i layout ⟨⟨i, 0⟩, 0⟩)
    (hfree : p.tupleAt? ⟨⟨i, 0⟩, 0⟩ = none) : r = ⟨⟨i, 0⟩, 0⟩ := by
  cases h with
  | free _ _ hleast =>
    rcases hleast _ hslot hfree with heq | hlt | ⟨-, hlt⟩
    · exact heq.symm
    · exact absurd hlt UInt32.not_lt_zero
    · exact absurd hlt UInt16.not_lt_zero
  | added hfull => exact absurd hfree (hfull _ hslot)

/-- What is hindered has not succeeded. -/
theorem Hindered.ne_ok {o : Pass Call (Except Error Answer) × Pool} (h : Hindered t o)
    (answer : Answer) : o.1 ≠ .ended (.ok answer) := by
  cases h <;> nofun

end Pool

namespace World

variable {w : World} {rule : World → Action → Prop} {p : Pool} {capacity : Nat} {catalog : Catalog}
  {journal : Journal}

/-- Heap tables are maps from record ids to tuples, whatever the sizes of their pages and tuples and
whatever their pages hold, for whoever reads their newest versions. A scan lists the tuples of its
table in the order of their record ids. An insert of a tuple of the table's width stores it under the
first free record id, which is on a new page if none is free on the others. A delete takes away the
tuple that it names, or says what is missing. So it goes with every attempt that nothing hinders. -/
theorem heap_tables_are_maps (hs : catalog.Sound)
    (hp : Pool.make capacity catalog journal = .ok p) (hr : Reaches rule (ofPool p) w)
    (t : TransactionId) :
    (∀ q page, (w.pool.read t q).1 = .ok page → w.pool.newest? q = some page.data) ∧
    (∀ i layout, w.pool.catalog.layout? i = some layout →
      (w.pool.tableTuples i).Pairwise (fun x y => x.1.Before y.1) ∧
      (∀ r d, (r, d) ∈ w.pool.tableTuples i ↔
        r.page.table = i ∧ w.pool.tupleAt? r = some d) ∧
      (Pool.Hindered t ((Command.scan t i).attempt w.pool) ∨
        ∃ p', (Command.scan t i).attempt w.pool =
            (.ended (.ok (.tuples (w.pool.tableTuples i))), p') ∧
          Pool.SameContents none w.pool p' ∧ p'.tupleAt? = w.pool.tupleAt?) ∧
      ∀ tuple, tuple.length = layout.tupleSize →
        Pool.Hindered t ((Command.insert t i tuple).attempt w.pool) ∨
          w.pool.Inserts i layout tuple ((Command.insert t i tuple).attempt w.pool)) ∧
    ∀ record?, Pool.Hindered t ((Command.delete t record?).attempt w.pool) ∨
      w.pool.Deletes record? ((Command.delete t record?).attempt w.pool) := by
  have hbacked := hr.backed (sturdy_ofPool hs hp) (Pool.backed_make hs hp)
  refine ⟨fun q page hread => ?_, fun i layout hl => ⟨hbacked.pairwise_tableTuples i,
    fun r d => hbacked.mem_tableTuples, Pool.scan_attempt hbacked hl t,
    fun tuple hwidth => Pool.insert_attempt hbacked hl hwidth t⟩, Pool.delete_attempt hbacked t⟩
  rcases hpool : w.pool.read t q with ⟨found, k⟩
  rw [hpool] at hread
  obtain rfl : found = .ok page := hread
  rw [Pool.newest?_eq, Pool.SameContents.visible?_of_read hbacked hpool]
  rfl

/-- A pool of one page over a table of one page, on which the second of two slots is used. -/
def halfFull : Pool :=
  { capacity := 1, pages := .empty, recency := .empty, active := .empty, unsynced := .empty
    locks := .empty, catalog := .halfFull, journal := .ofMedium (.memory .empty), stats := .zero
    nextTid := 1 }

theorem make_halfFull : Pool.make 1 .halfFull (.ofMedium (.memory .empty)) = .ok halfFull := rfl

/-- Transaction 1 has stored a tuple there, in the slot before the one that was used. -/
def bothStored : World := (ofPool halfFull).performAll [.call 0 (.insert ⟨1⟩ ⟨1⟩ [7]), .turn 0]

/-- The insert takes the first slot, which is free. After it a scan lists both tuples by their slots,
and a delete takes away the second one. -/
theorem stored_tuple_listed_and_removed :
    (∃ p', (Command.insert ⟨1⟩ ⟨1⟩ [7]).attempt halfFull = (.ended (.ok .done), p') ∧
      p'.tupleAt? = Function.update halfFull.tupleAt? ⟨⟨⟨1⟩, 0⟩, 0⟩ (some [7])) ∧
    (∃ p', (Command.scan ⟨1⟩ ⟨1⟩).attempt bothStored.pool =
        (.ended (.ok (.tuples [(⟨⟨⟨1⟩, 0⟩, 0⟩, [7]), (⟨⟨⟨1⟩, 0⟩, 1⟩, [8])])), p') ∧
      p'.tupleAt? = bothStored.pool.tupleAt?) ∧
    ∃ p', (Command.delete ⟨1⟩ (some ⟨⟨⟨1⟩, 0⟩, 1⟩)).attempt bothStored.pool =
        (.ended (.ok .done), p') ∧
      p'.tupleAt? = Function.update bothStored.pool.tupleAt? ⟨⟨⟨1⟩, 0⟩, 1⟩ none := by
  have hstart : Reaches (fun _ _ => True) (ofPool halfFull) (ofPool halfFull) := .refl
  have hreaches : Reaches (fun _ _ => True) (ofPool halfFull) bothStored :=
    hstart.performAll ⟨trivial, trivial, trivial⟩
  obtain ⟨-, hbefore, -⟩ := heap_tables_are_maps Catalog.sound_halfFull make_halfFull hstart ⟨1⟩
  obtain ⟨-, hafter, hdelete⟩ :=
    heap_tables_are_maps Catalog.sound_halfFull make_halfFull hreaches ⟨1⟩
  refine ⟨?_, ?_, ?_⟩
  · obtain ⟨-, -, -, hinsert⟩ := hbefore ⟨1⟩ ⟨1, 2⟩ rfl
    have hstores : ((Command.insert ⟨1⟩ ⟨1⟩ [7]).attempt halfFull).1 = .ended (.ok .done) := rfl
    have hinserts := (hinsert [7] rfl).resolve_left fun h => h.ne_ok _ hstores
    obtain ⟨r, added, htakes, hedits⟩ := hinserts.stored hstores
    obtain rfl := htakes.eq_first ⟨by decide, by decide⟩ rfl
    exact ⟨_, Prod.ext hstores rfl, hedits.tuples_eq⟩
  · obtain ⟨-, -, hscan, -⟩ := hafter ⟨1⟩ ⟨1, 2⟩ rfl
    have hlisted : bothStored.pool.tableTuples ⟨1⟩ =
        [(⟨⟨⟨1⟩, 0⟩, 0⟩, [7]), (⟨⟨⟨1⟩, 0⟩, 1⟩, [8])] := by decide
    rw [hlisted] at hscan
    have hlists : ((Command.scan ⟨1⟩ ⟨1⟩).attempt bothStored.pool).1 =
        .ended (.ok (.tuples [(⟨⟨⟨1⟩, 0⟩, 0⟩, [7]), (⟨⟨⟨1⟩, 0⟩, 1⟩, [8])])) := rfl
    obtain ⟨p', hscan, -, hsame⟩ := hscan.resolve_left fun h => h.ne_ok _ hlists
    exact ⟨p', hscan, hsame⟩
  · have hremoves : ((Command.delete ⟨1⟩ (some ⟨⟨⟨1⟩, 0⟩, 1⟩)).attempt bothStored.pool).1 =
        .ended (.ok .done) := rfl
    have hdeletes := (hdelete (some ⟨⟨⟨1⟩, 0⟩, 1⟩)).resolve_left fun h => h.ne_ok _ hremoves
    exact ⟨_, Prod.ext hremoves rfl, (hdeletes.removed hremoves).tuples_eq⟩

end World

end PagePool
