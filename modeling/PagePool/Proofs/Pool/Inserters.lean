import PagePool.Proofs.Pool.Newest

namespace PagePool

/-- The tuple of a call that inserts into the table. -/
def Call.insertInto? (i : TableId) (c : Call) : Option Bytes :=
  match c.task with
  | .insert tuple _ _ => if c.request.page.table = i then some tuple else none
  | _ => none

/-- The record id of the first free slot on the page that a call is handed. -/
def Pool.freeRecord? (p : Pool) (c : Call) : Option RecordId :=
  match p.handed? c, p.catalog.layout? c.request.page.table with
  | some page, some layout =>
    (layout.freeSlot page.data).map fun slot => ⟨c.request.page, UInt16.ofNat slot⟩
  | _, _ => none

/-- An account of the inserts into a table: the tuples with the record ids that they were given, and
how many calls have ended well. -/
structure Inserts where
  placed : List StoredTuple
  successes : Nat

def Inserts.none : Inserts := ⟨[], 0⟩

namespace World

/-- The call that inserts into the table and ends well in this step, with its tuple. -/
def insertion? (i : TableId) (w : World) : Action → Option (Call × Bytes)
  | .turn j =>
    match w.session.pending[j]?, (w.turn j).1 with
    | some p, some (_, .ok .done) => (p.call.insertInto? i).map (p.call, ·)
    | _, _ => none
  | _ => none

def noteInsert (i : TableId) (w : World) (k : Inserts) (a : Action) : Inserts :=
  match w.insertion? i a with
  | some (c, tuple) =>
    ⟨k.placed ++ ((w.pool.freeRecord? c).map (·, tuple)).toList, k.successes + 1⟩
  | none => k

/-- Nothing is deleted, and no transaction aborts. -/
def OnlyAdds : Action → Prop
  | .call _ (.delete _ _) => False
  | .complete _ false => False
  | _ => True

/-- What inserters keep to. -/
def Inserting (w : World) (a : Action) : Prop := w.Orderly a ∧ OnlyAdds a

instance : (a : Action) → Decidable (OnlyAdds a)
  | .call _ (.delete _ _) => isFalse id
  | .complete _ false => isFalse id
  | .complete _ true => isTrue trivial
  | .call _ (.fetch _ _ _) => isTrue trivial
  | .call _ (.insert _ _ _) => isTrue trivial
  | .call _ (.scan _ _) => isTrue trivial
  | .begin => isTrue trivial
  | .turn _ => isTrue trivial
  | .flush _ => isTrue trivial
  | .flushAll => isTrue trivial
  | .flushOf _ => isTrue trivial
  | .discard _ => isTrue trivial
  | .releaseLock _ _ => isTrue trivial
  | .failStore _ _ => isTrue trivial
  | .failLog _ _ => isTrue trivial

instance (w : World) (a : Action) : Decidable (w.Inserting a) :=
  inferInstanceAs (Decidable (_ ∧ _))

end World

/-- What a search knows of the table: its tuple fits in, and all pages before its own are full. -/
def Pool.Passed (p : Pool) (i : TableId) (layout : Layout) (c : Call) : Prop :=
  ∀ tuple, c.insertInto? i = some tuple → tuple.length = layout.tupleSize ∧
    ∀ q : PageId, q.table = i → q.pageNo.toNat < c.request.page.pageNo.toNat → p.IsFull layout q

/-- The inserts have filled the table page by page, and the waiting searches know where it is full. -/
structure World.Filled (i : TableId) (layout : Layout) (w : World) (k : Inserts) : Prop where
  packs : w.pool.Packs i layout k.placed
  length_eq : k.placed.length = k.successes
  passed : ∀ p ∈ w.session.pending, w.pool.Passed i layout p.call
  adds : ∀ p ∈ w.session.pending, ∀ slot install, p.call.task ≠ .delete slot install

variable {i : TableId} {layout : Layout} {q : PageId} {d tuple : Bytes} {c : Call}

theorem Call.insertInto?_eq_some :
    c.insertInto? i = some tuple ↔
      (∃ held install, c.task = .insert tuple held install) ∧ c.request.page.table = i := by
  unfold insertInto?
  split
  · rename_i tuple' held install htask
    rw [htask]
    simp
    tauto
  · rename_i hnot
    constructor
    · nofun
    · rintro ⟨⟨held, install, htask⟩, -⟩
      exact absurd htask (hnot _ _ _)

namespace World

variable {w : World} {k : Inserts} {a : Action} {other : Pending Call}

theorem insertion?_eq_some (h : w.insertion? i a = some (c, tuple)) :
    ∃ j call, a = .turn j ∧ w.session.pending[j]? = some call ∧ call.call = c ∧
      c.insertInto? i = some tuple ∧
      w.pool.runCall 1 c = (.ended (.ok .done), (w.perform a).pool) := by
  cases a with
  | turn j =>
    simp only [insertion?] at h
    split at h
    · rename_i call step hj hturn
      obtain ⟨tuple', htuple, he⟩ := Option.map_eq_some_iff.1 h
      obtain ⟨rfl, rfl⟩ := Prod.mk.inj he
      exact ⟨j, call, rfl, hj, rfl, htuple, (runCall_of_turn hj hturn).1⟩
    · contradiction
  | _ => contradiction

/-- An insert that ends well has placed its tuple, where the account says. -/
theorem places_of_insertion (hw : w.Consistent) (hr : w.InRange)
    (hlayout : w.pool.catalog.layout? i = some layout)
    (h : w.insertion? i a = some (c, tuple)) :
    ∃ d slot, w.pool.freeRecord? c = some ⟨c.request.page, UInt16.ofNat slot⟩ ∧
      w.pool.Places (w.perform a).pool layout c.request.page d slot tuple := by
  obtain ⟨j, call, rfl, hj, rfl, hinto, hrun⟩ := insertion?_eq_some h
  obtain ⟨⟨held, install, htask⟩, rfl⟩ := Call.insertInto?_eq_some.1 hinto
  have hcall := List.mem_of_getElem? hj
  have hwaits := hw.waits call hcall
  obtain ⟨tuple', held', htask'⟩ := hw.search hcall ⟨_, _, _, htask⟩
  obtain ⟨rfl, rfl, rfl⟩ := Task.insert.inj (htask.symm.trans htask')
  have hsearches := Pool.searches_runCall hw.agrees.catalog htask
  rw [hrun] at hsearches
  cases hsearches with
  | @places page layout' slot p' hhanded hlayout' hslot hcatalog =>
    obtain rfl := Option.some.inj (hlayout.symm.trans hlayout')
    obtain ⟨hview, hlatest⟩ := hw.agrees.latest_of_handed hwaits hhanded
    have hstored := Catalog.isSome_stored?.2 (hr call hcall ⟨_, _, _, htask⟩)
    have hfound := hw.agrees.newest?_eq_some.2 ⟨hstored, hlatest⟩
    -- the ledger has noted the change of this page, and nothing else
    have hledger : (w.perform (.turn j)).ledger =
        w.ledger.set call.call.request.tid call.call.request.page
          (layout.write page.data slot tuple) := by
      have hrecord : (w.perform (.turn j)).ledger =
          w.ledger.record w.pool.catalog.layout? call.call (.ok .done) :=
        congrArg (fun o => o.2.ledger) (turn_of_ended hj hrun)
      rw [hview] at hslot ⊢
      rw [hrecord]
      simp only [Ledger.record, hlayout, htask, Ledger.edit, hslot]
    have hagrees : (w.perform (.turn j)).pool.Agrees _ := (hw.turn j).agrees
    rw [show (w.turn j).2.ledger = _ from hledger] at hagrees
    refine ⟨page.data, slot, ?_, hcatalog, hfound, hslot, ?_, fun {r} hne => ?_⟩
    · simp only [Pool.freeRecord?, hhanded, hlayout, hslot]
      rfl
    · refine hagrees.newest?_eq_some.2 ⟨?_, .inl ⟨call.call.request.tid, ?_⟩⟩
      · rw [hcatalog]
        exact hstored
      · simp [Ledger.set]
    · refine hw.agrees.newest?_stays hagrees ?_ fun e he => ?_
      · rw [hcatalog]
      · exact he.congr rfl fun t => if_neg fun hset => hne hset.2

/-- Every other step leaves the latest version of each page of the table as it is. -/
theorem latest_perform (hw : w.Consistent) (ha : OnlyAdds a)
    (hadds : ∀ p ∈ w.session.pending, ∀ slot install, p.call.task ≠ .delete slot install)
    (hnone : w.insertion? i a = none) (hq : q.table = i) (hd : w.ledger.Latest q d) :
    (w.perform a).ledger.Latest q d := by
  cases a with
  | turn j =>
    cases hj : w.session.pending[j]? with
    | none =>
      rw [show w.perform (.turn j) = w from congrArg Prod.snd (turn_of_absent hj)]
      exact hd
    | some call =>
      rcases hrun : w.pool.runCall 1 call.call with ⟨pass, p'⟩
      cases pass with
      | blocked c =>
        simp only [perform, turn_of_blocked hj hrun]
        exact hd
      | ended result =>
        obtain ⟨t, hadvances⟩ := advances_turn hw j
        have hcommitted := hadvances.committed_eq
        rw [turn_of_ended hj hrun] at hcommitted
        simp only [perform, turn_of_ended hj hrun]
        by_cases hdone : result = .ok .done
        · subst hdone
          refine hd.congr (congrFun hcommitted q) fun t => ?_
          by_cases hpage : q = call.call.request.page
          · -- the call is no insert into the table, and no delete
            have hinto : call.call.insertInto? i = none := by
              simpa only [insertion?, hj, turn_of_ended hj hrun, Option.map_eq_none_iff] using hnone
            have hsame : w.ledger.record w.pool.catalog.layout? call.call (.ok .done) =
                w.ledger := by
              simp only [Ledger.record]
              cases w.pool.catalog.layout? call.call.request.page.table with
              | none => rfl
              | some layout =>
                cases htask : call.call.task with
                | insert tuple held install =>
                  have hsome := Call.insertInto?_eq_some.2 ⟨⟨held, install, htask⟩, hpage ▸ hq⟩
                  rw [hinto] at hsome
                  contradiction
                | delete slot install =>
                  exact absurd htask (hadds call (List.mem_of_getElem? hj) slot install)
                | _ => rfl
            rw [hsame]
          · exact Ledger.pending_record_of_ne hpage
        · rw [Ledger.record_eq_self hdone]
          exact hd
  | complete t commit =>
    cases commit with
    | true => exact hw.agrees.latest_completed hd t
    | false => exact ha.elim
  | _ =>
    rw [ledger_perform]
    exact hd

/-- What a search finds full is so. -/
theorem isFull_of_handed {page : Page} (hw : w.Consistent) (hr : w.InRange)
    (hother : other ∈ w.session.pending) (hsearch : Pool.IsSearch other.call)
    (hhanded : w.pool.handed? other.call = some page)
    (hslot : layout.freeSlot page.data = none) : w.pool.IsFull layout other.call.request.page := by
  obtain ⟨-, hlatest⟩ := hw.agrees.latest_of_handed (hw.waits other hother) hhanded
  have hstored := Catalog.isSome_stored?.2 (hr other hother hsearch)
  exact ⟨page.data, hw.agrees.newest?_eq_some.2 ⟨hstored, hlatest⟩, hslot⟩

namespace Filled

theorem newest?_perform (h : w.Filled i layout k) (hw : w.Consistent) (ha : w.Inserting a)
    (hnone : w.insertion? i a = none) (hq : q.table = i)
    (hs : ((w.perform a).pool.catalog.stored? q).isSome = (w.pool.catalog.stored? q).isSome) :
    (w.perform a).pool.newest? q = w.pool.newest? q :=
  hw.agrees.newest?_stays (hw.perform ha.1).agrees hs fun _ =>
    latest_perform hw ha.2 h.adds hnone hq

theorem isSome_stored?_perform (hw : w.Consistent) (hr : w.InRange) (ha : w.Inserting a)
    (hs : (w.pool.catalog.stored? q).isSome = true) :
    ((w.perform a).pool.catalog.stored? q).isSome = true :=
  Catalog.isSome_stored?.2 (Nat.lt_of_lt_of_le (Catalog.isSome_stored?.1 hs)
    (pageCount_le_perform hw hr ha.1 q.table))

/-- A page of the table that is full stays full. -/
theorem isFull_perform (h : w.Filled i layout k) (hw : w.Consistent) (hr : w.InRange)
    (ha : w.Inserting a) (hq : q.table = i) (hfull : w.pool.IsFull layout q) :
    (w.perform a).pool.IsFull layout q := by
  cases hinsert : w.insertion? i a with
  | some placed =>
    obtain ⟨d, slot, -, hplaces⟩ := places_of_insertion hw hr h.packs.layout_eq hinsert
    exact hfull.of_places hplaces
  | none =>
    obtain ⟨d, hd, hslot⟩ := hfull
    have hstored := (hw.agrees.newest?_eq_some.1 hd).1
    refine ⟨d, ?_, hslot⟩
    rw [h.newest?_perform hw ha hinsert hq
      ((isSome_stored?_perform hw hr ha hstored).trans hstored.symm)]
    exact hd

/-- When a table grows, its pages are all full. -/
theorem isFull_of_grows (h : w.Filled i layout k) (hw : w.Consistent) (hr : w.InRange)
    (hg : w.Grows i a) (hq : q.table = i) (hn : q.pageNo.toNat < w.pool.catalog.pageCount i) :
    w.pool.IsFull layout q := by
  cases a with
  | call step c =>
    rw [hg.2] at hn
    contradiction
  | turn j =>
    obtain ⟨call, page, layout', hj, hsearch, htable, hhanded, hlayout, hslot, hcount⟩ := hg
    obtain rfl := Option.some.inj (h.packs.layout_eq.symm.trans hlayout)
    have hcall := List.mem_of_getElem? hj
    by_cases hlast : q = call.call.request.page
    · subst hlast
      exact isFull_of_handed hw hr hcall hsearch hhanded hslot
    · have hne : q.pageNo.toNat ≠ call.call.request.page.pageNo.toNat :=
        fun he => hlast (PageId.eq_of_toNat (hq.trans htable.symm) he)
      obtain ⟨tuple, held, htask⟩ := hw.search hcall hsearch
      have hinto := Call.insertInto?_eq_some.2 ⟨⟨held, true, htask⟩, htable⟩
      exact (h.passed call hcall tuple hinto).2 q hq (by omega)
  | _ => exact hg.elim

theorem packs_perform (h : w.Filled i layout k) (hw : w.Consistent) (hr : w.InRange)
    (ha : w.Inserting a) :
    (w.perform a).pool.Packs i layout (noteInsert i w k a).placed ∧
      (noteInsert i w k a).placed.length = (noteInsert i w k a).successes := by
  have hs := hw.agrees.catalog
  cases hinsert : w.insertion? i a with
  | some insertion =>
    obtain ⟨c, tuple⟩ := insertion
    obtain ⟨d, slot, hrecord, hplaces⟩ := places_of_insertion hw hr h.packs.layout_eq hinsert
    obtain ⟨j, call, rfl, hj, rfl, hinto, -⟩ := insertion?_eq_some hinsert
    obtain ⟨⟨held, install, htask⟩, htable⟩ := Call.insertInto?_eq_some.1 hinto
    have hcall := List.mem_of_getElem? hj
    have hn := hr call hcall ⟨_, _, _, htask⟩
    simp only [noteInsert, hinsert, hrecord, Option.map_some, Option.toList_some]
    refine ⟨h.packs.place hplaces htable (htable ▸ hn) (h.passed call hcall tuple hinto).1, ?_⟩
    rw [List.length_append, h.length_eq]
    rfl
  | none =>
    simp only [noteInsert, hinsert]
    refine ⟨?_, h.length_eq⟩
    have hlayout := layout?_perform hw ha.1
    have hcounts (hcount : (w.perform a).pool.catalog.pageCount i = w.pool.catalog.pageCount i)
        {q : PageId} (hq : q.table = i) : ((w.perform a).pool.catalog.stored? q).isSome =
          (w.pool.catalog.stored? q).isSome := by
      rw [Bool.eq_iff_iff, Catalog.isSome_stored?, Catalog.isSome_stored?, hq, hcount]
    rcases pageCount_perform hw hr ha.1 i with hcount | ⟨hgrows, hcount⟩
    · exact h.packs.congr hlayout hcount fun q hq =>
        h.newest?_perform hw ha hinsert hq (hcounts hcount hq)
    · obtain ⟨heap, hheap, hheapLayout⟩ := Option.map_eq_some_iff.1 h.packs.layout_eq
      refine h.packs.grow hlayout hcount (hheapLayout ▸ hs.layout_eq hheap) ?_ ?_
      · intro q hq hn
        refine ⟨h.newest?_perform hw ha hinsert hq ?_, h.isFull_of_grows hw hr hgrows hq hn⟩
        have hstored := Catalog.isSome_stored?.2 (hq ▸ hn)
        exact (isSome_stored?_perform hw hr ha hstored).trans hstored.symm
      · intro q d hq hn hd
        -- the page was not there, and nobody has set anything on it
        have habsent : w.pool.catalog.stored? q = none := by
          rw [← Option.not_isSome_iff_eq_none, Catalog.isSome_stored?, hq]
          exact Nat.not_lt_of_le hn
        have hlatest := latest_perform hw ha.2 h.adds hinsert hq
          (hw.agrees.latest_of_absent habsent)
        have hagrees := (hw.perform ha.1).agrees
        have hstored := (hagrees.newest?_eq_some.1 hd).1
        rw [hagrees.newest?_eq_some.2 ⟨hstored, hlatest⟩] at hd
        exact (Option.some.inj hd).symm

theorem passed_perform (h : w.Filled i layout k) (hw : w.Consistent) (hr : w.InRange)
    (ha : w.Inserting a) (hother : other ∈ (w.perform a).session.pending) :
    (w.perform a).pool.Passed i layout other.call := by
  have hkeep {c : Call} (hc : w.pool.Passed i layout c) :
      (w.perform a).pool.Passed i layout c := by
    intro tuple hinto
    obtain ⟨hwidth, hfull⟩ := hc tuple hinto
    exact ⟨hwidth, fun q hq hn => h.isFull_perform hw hr ha hq (hfull q hq hn)⟩
  rcases mem_pending_perform hother with
    hother | ⟨step, c, call, rfl, rfl, hstart⟩ | ⟨j, call, c, rfl, hj, rfl, hrun⟩
  · exact hkeep (h.passed other hother)
  · intro tuple hinto
    obtain ⟨⟨held, install, htask⟩, htable⟩ := Call.insertInto?_eq_some.1 hinto
    obtain ⟨t, j, tuple, rfl⟩ := Pool.insert_of_isSearch (by rw [hstart]) ⟨_, _, _, htask⟩
    rcases Pool.start_insert hw.agrees.catalog t j tuple with
      ⟨e, p', hs, -⟩ | ⟨layout', m, held', p', hs, hlayout, hwidth, hfinds⟩
    · cases hstart.symm.trans hs
    · obtain rfl := Progress.needs.inj (Prod.mk.inj (hstart.symm.trans hs)).1
      obtain ⟨rfl, -, -⟩ := Task.insert.inj htask
      obtain rfl : j = i := htable
      obtain rfl := Option.some.inj (hlayout.symm.trans h.packs.layout_eq)
      -- the search begins at the first page
      refine ⟨hwidth, fun q hq hn => ?_⟩
      have hzero : m.toNat ≤ 0 := hfinds.toNat_le
      simp only at hn
      omega
  · refine hkeep fun tuple hinto => ?_
    obtain ⟨⟨held, install, htask⟩, htable⟩ := Call.insertInto?_eq_some.1 hinto
    have hcall := List.mem_of_getElem? hj
    have hsearch := Pool.isSearch_of_blocked hw.agrees (hw.waits call hcall) hrun ⟨_, _, _, htask⟩
    obtain ⟨tuple', held', htask'⟩ := hw.search hcall hsearch
    have hsearches := Pool.searches_runCall hw.agrees.catalog htask'
    rw [hrun] at hsearches
    cases hsearches with
    | waits _ => exact h.passed call hcall tuple hinto
    | @passes page layout' m held'' _ hhanded hlayout hslot hfinds =>
      obtain ⟨rfl, -, -⟩ := Task.insert.inj htask
      simp only at htable
      obtain rfl := Option.some.inj ((htable ▸ hlayout).symm.trans h.packs.layout_eq)
      obtain ⟨hwidth, hfull⟩ :=
        h.passed call hcall _ (Call.insertInto?_eq_some.2 ⟨⟨_, _, htask'⟩, htable⟩)
      refine ⟨hwidth, fun q hq hn => ?_⟩
      have hle := hfinds.toNat_le
      rw [Catalog.toNat_succ_page (hr call hcall hsearch)] at hle
      -- the pages before the one it has just passed, or that one
      by_cases hlast : q = call.call.request.page
      · subst hlast
        exact isFull_of_handed hw hr hcall hsearch hhanded hslot
      · have hne : q.pageNo.toNat ≠ call.call.request.page.pageNo.toNat :=
          fun he => hlast (PageId.eq_of_toNat (hq.trans htable.symm) he)
        simp only at hn
        exact hfull q hq (by omega)

theorem adds_perform (h : w.Filled i layout k) (hw : w.Consistent) (ha : w.Inserting a)
    (hother : other ∈ (w.perform a).session.pending) :
    ∀ slot install, other.call.task ≠ .delete slot install := by
  rcases mem_pending_perform hother with
    hother | ⟨step, c, call, rfl, rfl, hstart⟩ | ⟨j, call, c, rfl, hj, rfl, hrun⟩
  · exact h.adds other hother
  · intro slot install htask
    have hstarted := Pool.start_task (c := c) (by rw [hstart])
    rw [htask] at hstarted
    cases c with
    | delete t record? => exact ha.2
    | _ => simp at hstarted
  · have hcall := List.mem_of_getElem? hj
    rcases Pool.turn_cases hw.agrees (hw.waits call hcall) with
      ⟨c', p', hrun', -, hgoes, -⟩ | ⟨result, p', hrun', -⟩
    · cases hrun.symm.trans hrun'
      rcases hgoes with rfl | hgoes
      · exact h.adds call hcall
      · rintro slot install htask
        simp only at htask
        rw [htask] at hgoes
        unfold Pool.GoesOn at hgoes
        split at hgoes <;> contradiction
    · cases hrun.symm.trans hrun'

/-- Every step of inserters keeps the table filled page by page. -/
theorem perform (h : w.Filled i layout k) (hw : w.Consistent) (hr : w.InRange)
    (ha : w.Inserting a) : (w.perform a).Filled i layout (noteInsert i w k a) := by
  obtain ⟨hpacks, hlength⟩ := h.packs_perform hw hr ha
  exact ⟨hpacks, hlength, fun _ => h.passed_perform hw hr ha, fun _ => h.adds_perform hw ha⟩

end Filled

theorem Tallies.filled {start : World} {begun : Inserts}
    (ht : Tallies (noteInsert i) Inserting start begun w k) (hstart : start.Consistent)
    (hr : start.InRange) (h : start.Filled i layout begun) : w.Filled i layout k := by
  induction ht with
  | refl => exact h
  | step ht ha ih =>
    have hreach := ht.reaches
    have horderly (w : World) (a : Action) (ha : w.Inserting a) : w.Orderly a := ha.1
    exact ih.perform (hreach.consistent horderly hstart) (hreach.inRange horderly hstart hr) ha

variable {p : Pool} {capacity : Nat} {catalog : Catalog} {journal : Journal}

/-- A table of one empty page at most is filled by no inserts. -/
theorem filled_ofPool (hs : catalog.Sound) (hp : Pool.make capacity catalog journal = .ok p)
    (hlayout : catalog.layout? i = some layout) (hpages : catalog.pageCount i ≤ 1)
    (hempty : p.tableTuples i = []) : (ofPool p).Filled i layout .none := by
  obtain ⟨-, rfl⟩ := Pool.make_eq_ok hp
  refine ⟨⟨hlayout, ?_, ?_, ?_⟩, rfl, nofun, nofun⟩
  · intro q d hq hd
    obtain ⟨heap, hheap, rfl⟩ := Option.map_eq_some_iff.1 hlayout
    have hstored : catalog.stored? q = some d := hd
    obtain ⟨heap', hheap', hn, rfl⟩ := Catalog.stored?_eq_some.1 hstored
    obtain rfl := Option.some.inj (hheap.symm.trans (hq ▸ hheap'))
    rw [PageFile.length_pageBytes (hs.fits hheap) hn, hs.pageSize_eq hheap]
    exact hs.layout_eq hheap
  · intro q hq hn
    have hcount : q.pageNo.toNat + 1 < catalog.pageCount i := hn
    omega
  · have hnone : (ofPool _).pool.tableTuples i = [] := hempty
    rw [hnone]
    exact .nil

/-- However inserters take their turns on a table that starts without tuples, on one page at most, no
two of their inserts are ever given the same record id, and each tuple that was inserted stands in its
slot of the newest version of its page. The table holds one tuple for each insert that has ended well,
and nothing else, and all its pages but the last are full. -/
theorem inserters_fill_pages (hs : catalog.Sound)
    (hp : Pool.make capacity catalog journal = .ok p) (hlayout : catalog.layout? i = some layout)
    (hpages : catalog.pageCount i ≤ 1) (hempty : p.tableTuples i = [])
    (hw : Tallies (noteInsert i) Inserting (ofPool p) .none w k) :
    (k.placed.map Prod.fst).Nodup ∧
    (∀ x ∈ k.placed, x.1.page.table = i ∧ ∃ d, w.pool.newest? x.1.page = some d ∧
      layout.isUsed d x.1.slot.toNat = true ∧ layout.read d x.1.slot.toNat = x.2) ∧
    (w.pool.tableTuples i).Perm k.placed ∧
    (w.pool.tableTuples i).length = k.successes ∧ k.placed.length = k.successes ∧
    ∀ q : PageId, q.table = i → q.pageNo.toNat + 1 < w.pool.catalog.pageCount i →
      ∃ d, w.pool.newest? q = some d ∧ layout.freeSlot d = none := by
  have h := hw.filled (consistent_ofPool hs hp) (inRange_ofPool p)
    (filled_ofPool hs hp hlayout hpages hempty)
  refine ⟨h.packs.nodup, fun x hx => h.packs.stands hx, h.packs.tuples, ?_, h.length_eq,
    fun q hq hn => h.packs.full hq hn⟩
  rw [h.packs.tuples.length_eq, h.length_eq]

/-- The second insert waits for the page that the first one has filled, and goes on to a new page. -/
def race : List Action :=
  [.begin, .begin, .call 0 (.insert ⟨1⟩ ⟨1⟩ [7]), .turn 0, .call 1 (.insert ⟨2⟩ ⟨1⟩ [8]), .turn 0,
    .complete ⟨1⟩ true, .turn 0, .turn 0]

def raced : World := (ofPool noPages).performAll race

def racedInserts : Inserts := Tallies.noteAll (noteInsert ⟨1⟩) (ofPool noPages) .none race

theorem second_inserter_adds_page :
    racedInserts.placed = [(⟨⟨⟨1⟩, 0⟩, 0⟩, [7]), (⟨⟨⟨1⟩, 1⟩, 0⟩, [8])] ∧
      (raced.pool.tableTuples ⟨1⟩).Perm racedInserts.placed ∧
      (raced.pool.tableTuples ⟨1⟩).length = 2 ∧ raced.pool.catalog.pageCount ⟨1⟩ = 2 ∧
      ∃ d, raced.pool.newest? ⟨⟨1⟩, 0⟩ = some d ∧ Layout.freeSlot ⟨1, 1⟩ d = none := by
  have hrace : Tallies (noteInsert ⟨1⟩) Inserting (ofPool noPages) .none raced racedInserts :=
    Tallies.refl.performAll (by decide)
  have hplaced : racedInserts.placed = [(⟨⟨⟨1⟩, 0⟩, 0⟩, [7]), (⟨⟨⟨1⟩, 1⟩, 0⟩, [8])] := by
    decide +kernel
  have hsuccesses : racedInserts.successes = 2 := by decide +kernel
  have hcount : raced.pool.catalog.pageCount ⟨1⟩ = 2 := by decide +kernel
  have hlayout : Catalog.noPages.layout? ⟨1⟩ = some ⟨1, 1⟩ := rfl
  obtain ⟨-, -, hall, hlength, -, hfull⟩ := inserters_fill_pages Catalog.sound_noPages make_noPages
    hlayout (by decide) (by decide) hrace
  exact ⟨hplaced, hall, hlength.trans hsuccesses, hcount,
    hfull ⟨⟨1⟩, 0⟩ rfl (by rw [hcount]; decide)⟩

end World

end PagePool
