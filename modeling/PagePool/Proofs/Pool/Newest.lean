import PagePool.Proofs.Heap.Contents
import PagePool.Proofs.Pool.Search

namespace PagePool

open scoped List

/-- Bytes that some transaction has set on the page, or the committed ones if none has. -/
def Ledger.Latest (l : Ledger) (q : PageId) (d : Bytes) : Prop :=
  (∃ t, l.pending t q = some d) ∨ (∀ t, l.pending t q = none) ∧ l.committed q = d

theorem Ledger.Latest.congr {l l' : Ledger} {q : PageId} {d : Bytes} (h : l.Latest q d)
    (hcommitted : l'.committed q = l.committed q)
    (hpending : ∀ t, l'.pending t q = l.pending t q) : l'.Latest q d := by
  rcases h with ⟨t, hset⟩ | ⟨hnone, hd⟩
  · exact .inl ⟨t, (hpending t).trans hset⟩
  · exact .inr ⟨fun t => (hpending t).trans (hnone t), hcommitted.trans hd⟩

namespace Pool

/-- The newest version of a page: the cached one, or the stored one of a page that is not cached. -/
def newest? (p : Pool) (q : PageId) : Option Bytes :=
  match p.pages.get? q with
  | some page => some page.data
  | none => p.catalog.stored? q

/-- The tuples on the newest version of a page. -/
def tuplesOf (p : Pool) (q : PageId) : List StoredTuple :=
  match p.catalog.layout? q.table, p.newest? q with
  | some layout, some d => layout.tuples q d
  | _, _ => []

/-- The tuples of a table, page by page. -/
def tableTuples (p : Pool) (i : TableId) : List StoredTuple :=
  (p.catalog.pagesOf i).flatMap p.tuplesOf

/-- No slot is free on the newest version of the page. -/
def IsFull (p : Pool) (layout : Layout) (q : PageId) : Prop :=
  ∃ d, p.newest? q = some d ∧ layout.freeSlot d = none

/-- The table holds just these tuples, and wastes no page: all pages but the last are full. -/
structure Packs (p : Pool) (i : TableId) (layout : Layout) (placed : List StoredTuple) : Prop where
  layout_eq : p.catalog.layout? i = some layout
  fits : ∀ {q d}, q.table = i → p.newest? q = some d →
    Layout.forPage d.length layout.tupleSize = .ok layout
  full : ∀ {q}, q.table = i → q.pageNo.toNat + 1 < p.catalog.pageCount i → p.IsFull layout q
  tuples : (p.tableTuples i).Perm placed

/-- A tuple has been written into the first free slot of a page, and nothing else has changed. -/
structure Places (p p' : Pool) (layout : Layout) (q : PageId) (d : Bytes) (slot : Nat)
    (tuple : Bytes) : Prop where
  catalog_eq : p'.catalog = p.catalog
  found : p.newest? q = some d
  free : layout.freeSlot d = some slot
  written : p'.newest? q = some (layout.write d slot tuple)
  others : ∀ {r}, r ≠ q → p'.newest? r = p.newest? r

variable {p p' : Pool} {l l' : Ledger} {q r : PageId} {d : Bytes} {c : Call} {page : Page}
  {t : TransactionId} {i : TableId} {layout : Layout} {placed : List StoredTuple} {slot : Nat}
  {tuple : Bytes}

theorem exists_newest? (hs : (p.catalog.stored? q).isSome = true) : ∃ d, p.newest? q = some d := by
  unfold newest?
  cases p.pages.get? q with
  | some page => exact ⟨_, rfl⟩
  | none => exact Option.isSome_iff_exists.1 hs

namespace Agrees

theorem newest?_eq_some (h : p.Agrees l) :
    p.newest? q = some d ↔ (p.catalog.stored? q).isSome = true ∧ l.Latest q d := by
  unfold newest?
  cases hq : p.pages.get? q with
  | some page =>
    simp only [Option.some.injEq]
    have hstored := h.stored_of_cached (isCached_iff.2 ⟨page, hq⟩)
    constructor
    · rintro rfl
      refine ⟨hstored, ?_⟩
      cases hdirty : page.dirtiedBy with
      | some t => exact .inl ⟨t, h.pending_iff.2 ⟨page, hq, hdirty, rfl⟩⟩
      | none =>
        refine .inr ⟨fun t => h.pending_eq_none_iff.2 ?_, (h.clean_eq hq hdirty).symm⟩
        intro other hother ht
        obtain rfl := Option.some.inj (hq.symm.trans hother)
        rw [hdirty] at ht
        contradiction
    · rintro ⟨-, ⟨t, hset⟩ | ⟨hnone, rfl⟩⟩
      · obtain ⟨other, hother, -, hd⟩ := h.pending_iff.1 hset
        obtain rfl := Option.some.inj (hq.symm.trans hother)
        exact hd
      · refine h.clean_eq hq ?_
        rw [Option.eq_none_iff_forall_ne_some]
        exact fun t ht => h.pending_eq_none_iff.1 (hnone t) page hq ht
  | none =>
    -- what is not cached is stored as it was last committed
    have hsynced : q ∉ p.unsynced := by
      intro hm
      obtain ⟨page, hpage⟩ := isCached_iff.1 (h.resident.cached_of_unsynced hm)
      rw [hq] at hpage
      contradiction
    have hnone (t : TransactionId) : l.pending t q = none := by
      apply h.pending_eq_none_iff.2
      intro page hpage
      rw [hq] at hpage
      contradiction
    simp only
    constructor
    · intro hd
      exact ⟨by rw [hd]; rfl, .inr ⟨hnone, (h.stored_eq hsynced hd).symm⟩⟩
    · rintro ⟨hstored, ⟨t, hset⟩ | ⟨-, rfl⟩⟩
      · rw [hnone] at hset
        contradiction
      · obtain ⟨stored, hs⟩ := Option.isSome_iff_exists.1 hstored
        rw [hs, h.stored_eq hsynced hs]

/-- A newest version stays as long as it is the latest one. -/
theorem newest?_stays (h : p.Agrees l) (h' : p'.Agrees l')
    (hs : (p'.catalog.stored? q).isSome = (p.catalog.stored? q).isSome)
    (hlatest : ∀ d, l.Latest q d → l'.Latest q d) : p'.newest? q = p.newest? q := by
  by_cases hstored : (p.catalog.stored? q).isSome = true
  · obtain ⟨d, hd⟩ := exists_newest? hstored
    rw [hd, h'.newest?_eq_some]
    exact ⟨hs.trans hstored, hlatest d (h.newest?_eq_some.1 hd).2⟩
  · have hnone : p.newest? q = none :=
      Option.eq_none_iff_forall_ne_some.2 fun d hd => hstored (h.newest?_eq_some.1 hd).1
    rw [hnone, Option.eq_none_iff_forall_ne_some]
    exact fun d hd => hstored (hs.symm.trans (h'.newest?_eq_some.1 hd).1)

/-- A page that a table gains is a page of zeros. -/
theorem latest_of_absent (h : p.Agrees l) (hs : p.catalog.stored? q = none) :
    l.Latest q (Bytes.zeros p.catalog.pageSize) := by
  refine .inr ⟨fun t => h.pending_eq_none_iff.2 fun page hq => ?_, h.zeros_of_absent hs⟩
  have hstored := h.stored_of_cached (isCached_iff.2 ⟨page, hq⟩)
  rw [hs] at hstored
  contradiction

/-- Who holds a page finds its latest bytes. -/
theorem latest_view (h : p.Agrees l) (hheld : p.locks.holds t q = true) :
    l.Latest q (l.view t q) := by
  cases hset : l.pending t q with
  | some d => exact .inl ⟨t, by rw [Ledger.view_eq_of_pending hset, hset]⟩
  | none =>
    refine .inr ⟨fun u => ?_, (Ledger.view_eq_of_not_pending hset).symm⟩
    by_cases hu : t = u
    · rwa [← hu]
    · exact h.pending_eq_none hheld hu

/-- A commit makes no version the latest that was not. -/
theorem latest_commit (h : p.Agrees l) (hd : l.Latest q d) (t : TransactionId) :
    (l.commit t).Latest q d := by
  rcases hd with ⟨u, hset⟩ | ⟨hnone, hd⟩
  · by_cases hu : u = t
    · subst hu
      refine .inr ⟨fun v => ?_, Ledger.view_eq_of_pending hset⟩
      simp only [Ledger.commit]
      split
      · rfl
      · rename_i hv
        exact h.pending_eq_none (h.holds_of_pending (by rw [hset]; rfl)) (Ne.symm hv)
    · refine .inl ⟨u, ?_⟩
      simp only [Ledger.commit, if_neg hu]
      exact hset
  · refine .inr ⟨fun v => ?_, (Ledger.view_eq_of_not_pending (hnone t)).trans hd⟩
    simp only [Ledger.commit]
    split
    · rfl
    · exact hnone v

theorem latest_completed (h : p.Agrees l) (hd : l.Latest q d) (t : TransactionId) :
    (p.completed l t true).Latest q d := by
  simp only [completed, if_true]
  split
  · exact h.latest_commit hd t
  · exact hd

theorem latest_of_handed {pages : List PageId} (h : p.Agrees l) (hc : Waits p l pages c)
    (hhanded : p.handed? c = some page) :
    page.data = l.view c.request.tid c.request.page ∧ l.Latest c.request.page page.data := by
  obtain rfl := handed_eq h hc hhanded
  have hlocked := Advances.acquire h c.request
  unfold handed? at hhanded
  rcases ha : p.locks.acquire c.request with ⟨attempt, locks⟩
  rw [ha] at hhanded hlocked
  cases attempt with
  | granted => exact ⟨rfl, hlocked.agrees.latest_view (h.locks.holds_of_granted ha)⟩
  | _ => contradiction

end Agrees

theorem tuplesOf_eq (hlayout : p.catalog.layout? q.table = some layout)
    (hd : p.newest? q = some d) : p.tuplesOf q = layout.tuples q d := by
  rw [tuplesOf, hlayout, hd]

theorem mem_tuplesOf {x : StoredTuple} (hx : x ∈ p.tuplesOf q) :
    x.1.page = q ∧ ∃ layout d slot, p.catalog.layout? q.table = some layout ∧
      p.newest? q = some d ∧ layout.isUsed d slot = true ∧
      x = (⟨q, UInt16.ofNat slot⟩, layout.read d slot) := by
  unfold tuplesOf at hx
  split at hx
  · rename_i layout d hlayout hd
    obtain ⟨slot, hused, rfl⟩ := Layout.mem_tuples hx
    exact ⟨rfl, layout, d, slot, hlayout, hd, hused, rfl⟩
  · contradiction

/-- A page that is full stays so when a tuple is placed. -/
theorem IsFull.of_places (h : p.IsFull layout r) (hp : p.Places p' layout q d slot tuple) :
    p'.IsFull layout r := by
  obtain ⟨e, he, hfull⟩ := h
  have hrq : r ≠ q := by
    rintro rfl
    rw [hp.found] at he
    rw [← Option.some.inj he, hp.free] at hfull
    contradiction
  exact ⟨e, (hp.others hrq).trans he, hfull⟩

namespace Packs

/-- The newest versions stay, and the table gains no page. -/
theorem congr (h : p.Packs i layout placed)
    (hlayout : p'.catalog.layout? = p.catalog.layout?)
    (hcount : p'.catalog.pageCount i = p.catalog.pageCount i)
    (hnewest : ∀ q, q.table = i → p'.newest? q = p.newest? q) : p'.Packs i layout placed := by
  refine ⟨hlayout ▸ h.layout_eq, fun hq hd => h.fits hq (hnewest _ hq ▸ hd), fun hq hn => ?_, ?_⟩
  · rw [IsFull, hnewest _ hq]
    exact h.full hq (hcount ▸ hn)
  · have hsame : p'.tableTuples i = p.tableTuples i := by
      rw [tableTuples, tableTuples, Catalog.pagesOf_congr hcount]
      refine List.flatMap_congr fun q hq => ?_
      rw [tuplesOf, hlayout, hnewest q (Catalog.mem_pagesOf.1 hq).1]
      rfl
    rw [hsame]
    exact h.tuples

/-- A table whose pages are all full gains a page of zeros. -/
theorem grow (h : p.Packs i layout placed) {size : Nat}
    (hlayout : p'.catalog.layout? = p.catalog.layout?)
    (hcount : p'.catalog.pageCount i = p.catalog.pageCount i + 1)
    (hfits : Layout.forPage size layout.tupleSize = .ok layout)
    (hold : ∀ q, q.table = i → q.pageNo.toNat < p.catalog.pageCount i →
      p'.newest? q = p.newest? q ∧ p.IsFull layout q)
    (hnew : ∀ q d, q.table = i → p.catalog.pageCount i ≤ q.pageNo.toNat →
      p'.newest? q = some d → d = Bytes.zeros size) : p'.Packs i layout placed := by
  refine ⟨hlayout ▸ h.layout_eq, ?_, ?_, ?_⟩
  · intro q d hq hd
    by_cases hn : q.pageNo.toNat < p.catalog.pageCount i
    · rw [(hold q hq hn).1] at hd
      exact h.fits hq hd
    · obtain rfl := hnew q d hq (Nat.le_of_not_lt hn) hd
      rwa [Bytes.length_zeros]
  · intro q hq hn
    obtain ⟨hsame, hfull⟩ := hold q hq (by omega)
    rwa [IsFull, hsame]
  · have hle : p.catalog.pageCount i ≤ p'.catalog.pageCount i := by omega
    obtain ⟨more, hmore, hrange⟩ :=
      TableId.pages_eq_append (i := i) hle (Nat.le_of_lt (p'.catalog.pageCount_lt i))
    have hempty : more.flatMap p'.tuplesOf = [] := by
      rw [List.flatMap_eq_nil_iff]
      intro q hq
      obtain ⟨htable, hn⟩ := hrange q hq
      cases hd : p'.newest? q with
      | none =>
        rw [tuplesOf, hd]
        split
        · contradiction
        · rfl
      | some d =>
        have hlayout' : p'.catalog.layout? q.table = some layout := by
          rw [htable, hlayout]
          exact h.layout_eq
        rw [tuplesOf_eq hlayout' hd, hnew q d htable hn hd]
        exact Layout.tuples_zeros _ _ _
    have hsame : p'.tableTuples i = p.tableTuples i := by
      rw [tableTuples, Catalog.pagesOf, hmore, List.flatMap_append, hempty, List.append_nil, tableTuples]
      refine List.flatMap_congr fun q hq => ?_
      obtain ⟨htable, hn⟩ := Catalog.mem_pagesOf.1 hq
      rw [tuplesOf, hlayout, (hold q htable hn).1]
      rfl
    rw [hsame]
    exact h.tuples

theorem place (h : p.Packs i layout placed) (hp : p.Places p' layout q d slot tuple)
    (hq : q.table = i) (hn : q.pageNo.toNat < p.catalog.pageCount i)
    (htuple : tuple.length = layout.tupleSize) :
    p'.Packs i layout (placed ++ [(⟨q, UInt16.ofNat slot⟩, tuple)]) := by
  obtain ⟨hcatalog, hd, hslot, hwritten, hothers⟩ := hp
  have hlt := Layout.lt_slots_of_freeSlot hslot
  have hfits := h.fits hq hd
  have hlayout : p.catalog.layout? q.table = some layout := hq ▸ h.layout_eq
  refine ⟨hcatalog ▸ h.layout_eq, ?_, ?_, ?_⟩
  · intro r e hr he
    by_cases hrq : r = q
    · subst hrq
      rw [hwritten] at he
      rwa [← Option.some.inj he, Layout.length_write hfits hlt htuple]
    · rw [hothers hrq] at he
      exact h.fits hr he
  · intro r hr hr'
    rw [hcatalog] at hr'
    exact (h.full hr hr').of_places ⟨hcatalog, hd, hslot, hwritten, hothers⟩
  · -- the page stands among the others, which keep their tuples
    obtain ⟨before, after, hpages⟩ := List.append_of_mem (Catalog.mem_pagesOf.2 ⟨hq, hn⟩)
    have hnodup := p.catalog.nodup_pagesOf i
    rw [hpages, List.nodup_middle, List.nodup_cons, List.mem_append, not_or] at hnodup
    obtain ⟨⟨hbefore, hafter⟩, -⟩ := hnodup
    have hsame (qs : List PageId) (hqs : q ∉ qs) : qs.flatMap p'.tuplesOf = qs.flatMap p.tuplesOf := by
      refine List.flatMap_congr fun r hr => ?_
      rw [tuplesOf, hcatalog, hothers fun he => hqs (he ▸ hr)]
      rfl
    have hpage : (p'.tuplesOf q).Perm ((⟨q, UInt16.ofNat slot⟩, tuple) :: p.tuplesOf q) := by
      rw [tuplesOf_eq (hcatalog ▸ hlayout) hwritten, tuplesOf_eq hlayout hd]
      exact Layout.tuples_write hfits hlt htuple (Layout.isUsed_of_freeSlot hslot) q
    have hold : (p.tableTuples i) =
        before.flatMap p.tuplesOf ++ (p.tuplesOf q ++ after.flatMap p.tuplesOf) := by
      rw [tableTuples, hpages, List.flatMap_append, List.flatMap_cons]
    have hnew : (p'.tableTuples i) =
        before.flatMap p.tuplesOf ++ (p'.tuplesOf q ++ after.flatMap p.tuplesOf) := by
      rw [tableTuples, hcatalog, hpages, List.flatMap_append, List.flatMap_cons,
        hsame before hbefore, hsame after hafter]
    calc p'.tableTuples i
        = before.flatMap p.tuplesOf ++ (p'.tuplesOf q ++ after.flatMap p.tuplesOf) := hnew
      _ ~ before.flatMap p.tuplesOf ++
          ((⟨q, UInt16.ofNat slot⟩, tuple) :: (p.tuplesOf q ++ after.flatMap p.tuplesOf)) :=
        (hpage.append_right _).append_left _
      _ ~ (⟨q, UInt16.ofNat slot⟩, tuple) :: p.tableTuples i := by
        rw [hold]
        exact List.perm_middle
      _ ~ (⟨q, UInt16.ofNat slot⟩, tuple) :: placed := h.tuples.cons _
      _ ~ placed ++ [(⟨q, UInt16.ofNat slot⟩, tuple)] := (List.perm_append_singleton _ _).symm

/-- No two tuples of a table have the same record id. -/
theorem nodup (h : p.Packs i layout placed) : (placed.map Prod.fst).Nodup := by
  rw [← (h.tuples.map Prod.fst).nodup_iff, tableTuples, List.map_flatMap, List.nodup_flatMap]
  constructor
  · intro q hq
    obtain ⟨htable, -⟩ := Catalog.mem_pagesOf.1 hq
    cases hd : p.newest? q with
    | none =>
      have hnone : p.tuplesOf q = [] := by
        rw [tuplesOf, hd]
        split
        · contradiction
        · rfl
      rw [hnone]
      exact List.nodup_nil
    | some d =>
      rw [tuplesOf_eq (htable ▸ h.layout_eq) hd]
      exact Layout.nodup_tuples (h.fits htable hd) q d
  · refine (p.catalog.nodup_pagesOf i).imp fun hne => ?_
    refine List.disjoint_left.2 fun {record} hleft hright => ?_
    obtain ⟨x, hx, rfl⟩ := List.mem_map.1 hleft
    obtain ⟨y, hy, hxy⟩ := List.mem_map.1 hright
    exact hne ((mem_tuplesOf hx).1.symm.trans
      ((congrArg RecordId.page hxy.symm).trans (mem_tuplesOf hy).1))

/-- Each tuple stands in its slot. -/
theorem stands (h : p.Packs i layout placed) {x : StoredTuple} (hx : x ∈ placed) :
    x.1.page.table = i ∧ ∃ d, p.newest? x.1.page = some d ∧
      layout.isUsed d x.1.slot.toNat = true ∧ layout.read d x.1.slot.toNat = x.2 := by
  obtain ⟨q, hq, hmem⟩ := List.mem_flatMap.1 (h.tuples.mem_iff.2 hx)
  obtain ⟨htable, -⟩ := Catalog.mem_pagesOf.1 hq
  obtain ⟨rfl, layout', d, slot, hlayout, hd, hused, hx⟩ := mem_tuplesOf hmem
  rw [htable, h.layout_eq] at hlayout
  obtain rfl := Option.some.inj hlayout
  have hslot := Layout.toNat_ofNat_slot (h.fits htable hd) (Layout.lt_slots_of_isUsed hused)
  refine ⟨htable, d, hd, ?_⟩
  rw [hx, hslot]
  exact ⟨hused, rfl⟩

end Packs

end Pool

end PagePool
