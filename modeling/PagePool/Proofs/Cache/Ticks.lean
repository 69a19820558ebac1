import Mathlib.Data.List.Perm.Basic
import PagePool.OrdSet
import PagePool.Proofs.Cache.Recency

namespace PagePool

/-- A page and the tick of an access to it. Stamps stand in the order of their ticks. -/
structure Stamp where
  tick : UInt64
  page : PageId
  deriving DecidableEq

theorem PageId.rank_lt (q : PageId) : Key.rank q < UInt64.size := by
  have htable := q.table.number.toNat_lt
  have hpage := q.pageNo.toNat_lt
  simp only [Key.rank, UInt32.size, UInt64.size]
  omega

instance : Key Stamp where
  rank s := s.tick.toNat * UInt64.size + Key.rank s.page
  rank_injective {a b} h := by
    -- the rank has two digits, the tick and the rank of the page
    have hdigits {m n i j : Nat} (hi : i < UInt64.size) (hj : j < UInt64.size)
        (hsum : m * UInt64.size + i = n * UInt64.size + j) : m = n ∧ i = j := by
      simp only [UInt64.size] at hi hj hsum
      omega
    obtain ⟨htick, hpage⟩ := hdigits a.page.rank_lt b.page.rank_lt h
    cases a
    cases b
    congr 1
    · exact UInt64.toNat.inj htick
    · exact Key.rank_injective hpage

/-- A later tick puts a stamp behind an earlier one, whatever their pages. -/
theorem Stamp.rank_lt {s s' : Stamp} (h : s.tick < s'.tick) : Key.rank s < Key.rank s' := by
  have hpage := s.page.rank_lt
  have hnext : (s.tick.toNat + 1) * UInt64.size ≤ s'.tick.toNat * UInt64.size :=
    Nat.mul_le_mul_right _ (UInt64.lt_iff_toNat_lt.1 h)
  calc Key.rank s < s.tick.toNat * UInt64.size + UInt64.size := Nat.add_lt_add_left hpage _
    _ = (s.tick.toNat + 1) * UInt64.size := (Nat.succ_mul _ _).symm
    _ ≤ s'.tick.toNat * UInt64.size := hnext
    _ ≤ Key.rank s' := Nat.le_add_right _ _

/-- The recency of pages kept in three containers: the last tick of each tracked page, the same
stamps in order, and the pages that may go. The clock has 64 bits. -/
structure TickTable where
  clock : UInt64
  lastAccess : OrdMap PageId UInt64
  order : OrdSet Stamp
  evictable : OrdSet PageId

/-- A call to what keeps the recency of pages. -/
inductive RecencyCall where
  | access (page : PageId)
  | setEvictable (page : PageId) (on : Bool)
  | remove (page : PageId)
  | evict

/-- The pages that calls access, the latest first. -/
def RecencyCall.uses (calls : List RecencyCall) : List PageId :=
  (calls.filterMap fun | access page => some page | _ => none).reverse

theorem RecencyCall.uses_cons (c : RecencyCall) (cs : List RecencyCall) :
    uses (c :: cs) = uses cs ++ uses [c] := by
  cases c <;> simp [uses]

/-- Calls in order, with their answers. -/
def inTurn {σ κ ρ : Type} (perform : σ → κ → ρ × σ) : σ → List κ → List ρ × σ
  | s, [] => ([], s)
  | s, c :: cs => (inTurn perform (perform s c).2 cs).map ((perform s c).1 :: ·) id

def Recency.perform (r : Recency) : RecencyCall → Option PageId × Recency
  | .access page => (none, r.access page)
  | .setEvictable page on => (none, r.setEvictable page on)
  | .remove page => (none, r.remove page)
  | .evict => r.evict

namespace TickTable

def empty : TickTable := ⟨0, .empty, .empty, .empty⟩

/-- The stamps without the one that a page has. -/
def withoutStamp (r : TickTable) (page : PageId) : OrdSet Stamp :=
  match r.lastAccess.get? page with
  | some tick => r.order.erase ⟨tick, page⟩
  | none => r.order

def access (r : TickTable) (page : PageId) : TickTable :=
  { r with
    clock := r.clock + 1
    lastAccess := r.lastAccess.insert page (r.clock + 1)
    order := (r.withoutStamp page).insert ⟨r.clock + 1, page⟩ }

def setEvictable (r : TickTable) (page : PageId) (on : Bool) : TickTable :=
  { r with
    evictable :=
      if on && r.lastAccess.contains page then r.evictable.insert page
      else r.evictable.erase page }

def remove (r : TickTable) (page : PageId) : TickTable :=
  { r with
    lastAccess := r.lastAccess.erase page
    order := r.withoutStamp page
    evictable := r.evictable.erase page }

/-- Takes out the first stamp whose page may go. -/
def evict (r : TickTable) : Option PageId × TickTable :=
  match r.order.toList.find? fun s => r.evictable.contains s.page with
  | none => (none, r)
  | some s =>
    (some s.page,
      { r with
        lastAccess := r.lastAccess.erase s.page
        order := r.order.erase s
        evictable := r.evictable.erase s.page })

def size (r : TickTable) : Nat := r.evictable.size

def perform (r : TickTable) : RecencyCall → Option PageId × TickTable
  | .access page => (none, r.access page)
  | .setEvictable page on => (none, r.setEvictable page on)
  | .remove page => (none, r.remove page)
  | .evict => r.evict

/-- The tracked pages in one list, the oldest first. -/
def recency (r : TickTable) : Recency :=
  ⟨r.clock.toNat,
    r.order.toList.map fun s => ⟨s.page, s.tick.toNat, r.evictable.contains s.page⟩⟩

/-- The containers say the same of every page: its one stamp has the tick of its last use, which is
the number of uses up to then, and only tracked pages may go. -/
structure InStep (r : TickTable) (uses : List PageId) : Prop where
  clock_eq : r.clock.toNat = uses.length
  mem_order : ∀ {s}, s ∈ r.order ↔ r.lastAccess.get? s.page = some s.tick
  last_use : ∀ {q tick}, r.lastAccess.get? q = some tick →
    q ∈ uses ∧ tick.toNat + uses.idxOf q = uses.length
  tracked : ∀ {q}, q ∈ r.evictable → ∃ tick, r.lastAccess.get? q = some tick

/-- The table after calls. -/
def after (calls : List RecencyCall) : TickTable := (inTurn perform empty calls).2

/-- What an eviction takes out: of the pages that may go the one whose last tick is the earliest, if
there is any. All others keep their ticks, and may go or not as before. -/
structure EvictsOldest (r : TickTable) : Prop where
  victim : ∀ q, r.evict.1 = some q ↔ q ∈ r.evictable ∧ ∀ p ∈ r.evictable, p ≠ q →
    ∃ older newer, r.lastAccess.get? q = some older ∧ r.lastAccess.get? p = some newer ∧
      older < newer
  nothing : r.evict.1 = none ↔ ∀ q, q ∉ r.evictable
  lastAccess_eq : ∀ p, r.evict.2.lastAccess.get? p =
    if r.evict.1 = some p then none else r.lastAccess.get? p
  mem_evictable : ∀ p, p ∈ r.evict.2.evictable ↔ r.evict.1 ≠ some p ∧ p ∈ r.evictable

variable {r : TickTable} {uses : List PageId} {q page : PageId} {s s' : Stamp} {tick : UInt64}
  {on : Bool}

theorem inStep_empty : empty.InStep [] := by
  refine ⟨rfl, ?_, nofun, fun h => absurd h (OrdSet.not_mem_empty _)⟩
  intro s
  exact iff_of_false (OrdSet.not_mem_empty s) nofun

namespace InStep

variable (h : r.InStep uses)

include h

theorem tick_le (hq : r.lastAccess.get? q = some tick) : tick ≤ r.clock := by
  obtain ⟨-, hlast⟩ := h.last_use hq
  rw [UInt64.le_iff_toNat_le, h.clock_eq]
  omega

/-- No two pages have one tick. -/
theorem eq_of_tick (hs : s ∈ r.order) (hs' : s' ∈ r.order) (htick : s.tick = s'.tick) : s = s' := by
  obtain ⟨hmem, hlast⟩ := h.last_use (h.mem_order.1 hs)
  obtain ⟨-, hlast'⟩ := h.last_use (h.mem_order.1 hs')
  have hpage : s.page = s'.page := by
    refine (List.idxOf_inj hmem).1 ?_
    rw [htick] at hlast
    omega
  cases s
  cases s'
  congr

theorem mem_withoutStamp : s ∈ r.withoutStamp q ↔ s.page ≠ q ∧ s ∈ r.order := by
  unfold withoutStamp
  cases hq : r.lastAccess.get? q with
  | none =>
    refine ⟨fun hs => ⟨?_, hs⟩, And.right⟩
    rintro rfl
    cases hq.symm.trans (h.mem_order.1 hs)
  | some tick =>
    rw [OrdSet.mem_erase]
    refine and_congr_left fun hs => not_congr ?_
    constructor
    · rintro rfl
      rfl
    · rintro rfl
      have htick := Option.some.inj (hq.symm.trans (h.mem_order.1 hs))
      rw [htick]

/-! Every call keeps the containers in step. -/

theorem access (hclock : uses.length + 1 < UInt64.size) (page : PageId) :
    (r.access page).InStep (page :: uses) := by
  have hnext : (r.clock + 1).toNat = uses.length + 1 := by
    rw [UInt64.toNat_add, h.clock_eq]
    exact Nat.mod_eq_of_lt hclock
  have hget (q : PageId) : (r.access page).lastAccess.get? q =
      if q = page then some (r.clock + 1) else r.lastAccess.get? q := OrdMap.get?_insert _ _ _ _
  refine ⟨hnext, ?_, ?_, ?_⟩
  · intro s
    refine OrdSet.mem_insert.trans ?_
    rw [h.mem_withoutStamp, hget, h.mem_order]
    obtain ⟨tick, q⟩ := s
    by_cases hq : q = page
    · simp [hq, eq_comm]
    · simp [hq]
  · intro q tick hq
    rw [hget] at hq
    by_cases he : q = page
    · subst he
      rw [if_pos rfl] at hq
      obtain rfl := Option.some.inj hq
      rw [List.idxOf_cons_self, hnext]
      exact ⟨List.mem_cons_self, rfl⟩
    · rw [if_neg he] at hq
      obtain ⟨hmem, hlast⟩ := h.last_use hq
      rw [List.idxOf_cons_ne uses (Ne.symm he), List.length_cons]
      exact ⟨List.mem_cons_of_mem _ hmem, by omega⟩
  · intro q hq
    rw [hget]
    split
    · exact ⟨_, rfl⟩
    · exact h.tracked hq

theorem setEvictable (page : PageId) (on : Bool) : (r.setEvictable page on).InStep uses := by
  refine ⟨h.clock_eq, h.mem_order, h.last_use, ?_⟩
  intro q hq
  simp only [TickTable.setEvictable] at hq ⊢
  split at hq
  · rename_i htracked
    rcases OrdSet.mem_insert.1 hq with rfl | hq
    · rw [Bool.and_eq_true] at htracked
      exact Option.isSome_iff_exists.1 htracked.2
    · exact h.tracked hq
  · exact h.tracked (OrdSet.mem_erase.1 hq).2

theorem remove (page : PageId) : (r.remove page).InStep uses := by
  have hget (q : PageId) : (r.remove page).lastAccess.get? q =
      if q = page then none else r.lastAccess.get? q := OrdMap.get?_erase _ _ _
  refine ⟨h.clock_eq, ?_, ?_, ?_⟩
  · intro s
    refine h.mem_withoutStamp.trans ?_
    rw [hget, h.mem_order]
    by_cases hs : s.page = page <;> simp [hs]
  · intro q tick hq
    rw [hget] at hq
    split at hq
    · contradiction
    · exact h.last_use hq
  · intro q hq
    obtain ⟨hne, hq⟩ := OrdSet.mem_erase.1 hq
    rw [hget, if_neg hne]
    exact h.tracked hq

/-- An eviction removes the page of the first stamp that may go. -/
theorem evict_eq : r.evict =
    match r.order.toList.find? fun s => r.evictable.contains s.page with
    | none => (none, r)
    | some s => (some s.page, r.remove s.page) := by
  unfold TickTable.evict
  cases hs : r.order.toList.find? fun s => r.evictable.contains s.page with
  | none => rfl
  | some s =>
    have hmem : s ∈ r.order := OrdSet.mem_toList.1 (List.mem_of_find?_eq_some hs)
    have hstamp : r.withoutStamp s.page = r.order.erase s := by
      rw [withoutStamp, h.mem_order.1 hmem]
    simp only [TickTable.remove, hstamp]

theorem evict : r.evict.2.InStep uses := by
  rw [h.evict_eq]
  split
  · exact h
  · exact h.remove _

/-! The containers say what the list of tracked pages says. -/

theorem contains_setEvictable (hs : s ∈ r.order) (page : PageId) (on : Bool) :
    (r.setEvictable page on).evictable.contains s.page =
      if s.page = page then on else r.evictable.contains s.page := by
  simp only [TickTable.setEvictable]
  cases on with
  | false => simp only [Bool.false_and, Bool.false_eq_true, if_false, OrdSet.contains_erase]
  | true =>
    rw [Bool.true_and]
    split
    · exact OrdSet.contains_insert _ _ _
    · rename_i huntracked
      have hne : s.page ≠ page := by
        rintro rfl
        exact huntracked (Option.isSome_iff_exists.2 ⟨_, h.mem_order.1 hs⟩)
      rw [OrdSet.contains_erase, if_neg hne, if_neg hne]

theorem toList_withoutStamp (page : PageId) :
    (r.withoutStamp page).toList = r.order.toList.filter fun s => s.page != page := by
  unfold withoutStamp
  cases hq : r.lastAccess.get? page with
  | none =>
    refine (List.filter_eq_self.2 fun s hs => ?_).symm
    rw [bne_iff_ne]
    rintro rfl
    cases hq.symm.trans (h.mem_order.1 (OrdSet.mem_toList.1 hs))
  | some tick =>
    rw [OrdSet.toList_erase]
    refine List.filter_congr fun s hs => ?_
    have hstamp := h.mem_order.1 (OrdSet.mem_toList.1 hs)
    rw [Bool.eq_iff_iff, bne_iff_ne, bne_iff_ne, ne_eq, Key.rank_eq_iff]
    refine not_congr ⟨?_, ?_⟩
    · rintro rfl
      rfl
    · rintro rfl
      have htick := Option.some.inj (hq.symm.trans hstamp)
      rw [htick]

theorem isEvictable_recency : r.recency.isEvictable q = r.evictable.contains q := by
  rw [Bool.eq_iff_iff, Recency.isEvictable_iff]
  constructor
  · rintro ⟨e, he, rfl, hon⟩
    obtain ⟨s, -, rfl⟩ := List.mem_map.1 he
    exact hon
  · intro hq
    obtain ⟨tick, htick⟩ := h.tracked hq
    have hs : (⟨tick, q⟩ : Stamp) ∈ r.order.toList := OrdSet.mem_toList.2 (h.mem_order.2 htick)
    exact ⟨_, List.mem_map_of_mem hs, rfl, hq⟩

theorem recency_remove (page : PageId) : (r.remove page).recency = r.recency.remove page := by
  simp only [recency, Recency.remove, TickTable.remove, h.toList_withoutStamp, List.filter_map]
  congr 1
  refine List.map_congr_left fun s hs => ?_
  have hne : s.page ≠ page := bne_iff_ne.1 (List.mem_filter.1 hs).2
  rw [OrdSet.contains_erase, if_neg hne]

theorem recency_setEvictable (page : PageId) (on : Bool) :
    (r.setEvictable page on).recency = r.recency.setEvictable page on := by
  have hentry := fun s hs => h.contains_setEvictable (s := s) (OrdSet.mem_toList.1 hs) page on
  simp only [recency, Recency.setEvictable, List.map_map]
  congr 1
  refine List.map_congr_left fun s hs => ?_
  rw [hentry s hs, Function.comp_apply]
  split <;> rfl

theorem recency_access (hclock : uses.length + 1 < UInt64.size) (page : PageId) :
    (r.access page).recency = r.recency.access page := by
  have hnext : (r.clock + 1).toNat = r.clock.toNat + 1 := by
    rw [UInt64.toNat_add, h.clock_eq]
    exact Nat.mod_eq_of_lt hclock
  -- the clock has not wrapped, so the new stamp goes behind all others
  have hlast : ∀ s ∈ r.withoutStamp page, Key.rank s < Key.rank (Stamp.mk (r.clock + 1) page) := by
    intro s hs
    have hle := h.tick_le (h.mem_order.1 (h.mem_withoutStamp.1 hs).2)
    refine Stamp.rank_lt ?_
    rw [UInt64.lt_iff_toNat_lt, hnext]
    exact Nat.lt_succ_of_le (UInt64.le_iff_toNat_le.1 hle)
  have horder : (r.access page).order.toList =
      (r.order.toList.filter fun s => s.page != page) ++ [⟨r.clock + 1, page⟩] := by
    rw [← h.toList_withoutStamp]
    exact OrdSet.toList_insert_of_lt hlast
  rw [Recency.access, h.isEvictable_recency]
  simp only [recency, horder, List.map_append, List.map_cons, List.map_nil, Recency.remove,
    List.filter_map, hnext]
  congr 1

/-- The first stamp that may go is the victim, and leaves. -/
theorem recency_evict : r.evict.1 = r.recency.evict.1 ∧ r.evict.2.recency = r.recency.evict.2 := by
  have hvictim : r.recency.victim? =
      (r.order.toList.find? fun s => r.evictable.contains s.page).map Stamp.page := by
    simp only [Recency.victim?, recency, List.find?_map, Option.map_map]
    rfl
  rw [h.evict_eq, Recency.evict, hvictim]
  cases r.order.toList.find? fun s => r.evictable.contains s.page with
  | none => exact ⟨rfl, rfl⟩
  | some s => exact ⟨rfl, h.recency_remove s.page⟩

/-- What one call does to the list, it does to the containers. -/
theorem perform (c : RecencyCall)
    (hclock : (RecencyCall.uses [c]).length + uses.length < UInt64.size) :
    (r.perform c).2.InStep (RecencyCall.uses [c] ++ uses) ∧
      r.recency.perform c = ((r.perform c).1, (r.perform c).2.recency) := by
  cases c with
  | access page =>
    have hclock : uses.length + 1 < UInt64.size := by rwa [Nat.add_comm]
    exact ⟨h.access hclock page, congrArg (none, ·) (h.recency_access hclock page).symm⟩
  | setEvictable page on =>
    exact ⟨h.setEvictable page on, congrArg (none, ·) (h.recency_setEvictable page on).symm⟩
  | remove page => exact ⟨h.remove page, congrArg (none, ·) (h.recency_remove page).symm⟩
  | evict => exact ⟨h.evict, (Prod.ext h.recency_evict.1 h.recency_evict.2).symm⟩

/-! The victim. -/

theorem mem_evictable_iff : q ∈ r.evictable ↔ r.recency.isEvictable q = true := by
  rw [h.isEvictable_recency]
  exact OrdSet.mem_iff

/-- The tracked pages stand in the order of their ticks. -/
theorem pages_ascending : r.recency.pages.Pairwise fun p q =>
    ∃ older newer, r.lastAccess.get? p = some older ∧ r.lastAccess.get? q = some newer ∧
      older < newer := by
  have hpages : r.recency.pages = r.order.toList.map Stamp.page := by
    simp only [Recency.pages, recency, List.map_map]
    rfl
  rw [hpages, List.pairwise_map]
  refine r.order.toList_ascending.imp_of_mem fun {s s'} hs hs' hrank => ?_
  have hs := OrdSet.mem_toList.1 hs
  have hs' := OrdSet.mem_toList.1 hs'
  refine ⟨s.tick, s'.tick, h.mem_order.1 hs, h.mem_order.1 hs', ?_⟩
  -- the rank looks at pages only where ticks are equal, and no two stamps have one tick
  rcases Nat.lt_trichotomy s.tick.toNat s'.tick.toNat with hlt | heq | hgt
  · exact UInt64.lt_iff_toNat_lt.2 hlt
  · obtain rfl := h.eq_of_tick hs hs' (UInt64.toNat.inj heq)
    exact absurd hrank (Nat.lt_irrefl _)
  · exact absurd (Stamp.rank_lt (UInt64.lt_iff_toNat_lt.2 hgt)) (Nat.lt_asymm hrank)

theorem evict_fst : r.evict.1 = r.recency.victim? := by
  rw [h.recency_evict.1, Recency.evict]
  cases r.recency.victim? <;> rfl

theorem evict_snd (hq : r.evict.1 = some q) : r.evict.2 = r.remove q := by
  rw [h.evict_eq] at hq ⊢
  cases hs : r.order.toList.find? fun s => r.evictable.contains s.page with
  | none => rw [hs] at hq; contradiction
  | some s =>
    rw [hs] at hq
    obtain rfl := Option.some.inj hq
    rfl

theorem evict_of_none (hnone : r.evict.1 = none) : r.evict.2 = r := by
  rw [h.evict_eq] at hnone ⊢
  cases hs : r.order.toList.find? fun s => r.evictable.contains s.page with
  | none => rfl
  | some s => rw [hs] at hnone; contradiction

theorem evictsOldest : r.EvictsOldest := by
  constructor
  · intro q
    rw [h.evict_fst]
    constructor
    · intro hv
      refine ⟨h.mem_evictable_iff.2 (Recency.isEvictable_of_victim hv), fun p hp hne => ?_⟩
      exact Recency.victim_first h.pages_ascending hv (h.mem_evictable_iff.1 hp) hne
    · rintro ⟨hq, holdest⟩
      cases hv : r.recency.victim? with
      | none => exact absurd (h.mem_evictable_iff.1 hq) (Recency.victim?_eq_none.1 hv q)
      | some v =>
        by_contra hne
        have hqv : q ≠ v := fun he => hne (by rw [he])
        -- each of the two would be older than the other
        obtain ⟨t, u, hvt, hqu, htu⟩ :=
          Recency.victim_first h.pages_ascending hv (h.mem_evictable_iff.1 hq) hqv
        obtain ⟨u', t', hqu', hvt', hut⟩ :=
          holdest v (h.mem_evictable_iff.2 (Recency.isEvictable_of_victim hv)) hqv.symm
        obtain rfl := Option.some.inj (hqu.symm.trans hqu')
        obtain rfl := Option.some.inj (hvt.symm.trans hvt')
        exact UInt64.lt_asymm htu hut
  · rw [h.evict_fst, Recency.victim?_eq_none]
    exact forall_congr' fun q => not_congr h.mem_evictable_iff.symm
  · intro p
    cases hv : r.evict.1 with
    | none => rw [h.evict_of_none hv, if_neg (by simp)]
    | some v =>
      rw [h.evict_snd hv, TickTable.remove, OrdMap.get?_erase]
      simp only [Option.some.injEq, eq_comm]
  · intro p
    cases hv : r.evict.1 with
    | none => simp [h.evict_of_none hv]
    | some v =>
      rw [h.evict_snd hv, TickTable.remove, OrdSet.mem_erase]
      simp only [ne_eq, Option.some.injEq, eq_comm]

/-- The size counts the tracked pages that may go. -/
theorem size_eq : r.size = r.lastAccess.keys.countP fun q => r.evictable.contains q := by
  have hperm : r.evictable.toList.Perm
      (r.lastAccess.keys.filter fun q => r.evictable.contains q) := by
    have hnodup : r.evictable.toList.Nodup := r.evictable.index.nodup_keys
    refine (List.perm_ext_iff_of_nodup hnodup (r.lastAccess.nodup_keys.filter _)).2 fun q => ?_
    rw [OrdSet.mem_toList, List.mem_filter]
    refine ⟨fun hq => ⟨?_, hq⟩, And.right⟩
    exact OrdMap.contains_iff.1 (Option.isSome_iff_exists.2 (h.tracked hq))
  rw [List.countP_eq_length_filter, ← hperm.length_eq]
  exact OrdMap.size_eq_length_keys _

/-- Nothing comes of a page that is not tracked. -/
theorem setEvictable_of_untracked (hpage : r.lastAccess.get? page = none) (on : Bool) :
    r.setEvictable page on = r := by
  have hout : page ∉ r.evictable := by
    intro hmem
    obtain ⟨tick, htick⟩ := h.tracked hmem
    cases hpage.symm.trans htick
  have herase : r.evictable.erase page = r.evictable := by
    refine OrdSet.ext_mem fun q => OrdSet.mem_erase.trans ⟨And.right, fun hq => ⟨?_, hq⟩⟩
    rintro rfl
    exact hout hq
  have hcontains : r.lastAccess.contains page = false := by
    rw [OrdMap.contains, hpage]
    rfl
  rw [TickTable.setEvictable, hcontains, Bool.and_false, if_neg Bool.false_ne_true, herase]

/-- The containers stay in step, and answer as the list does. -/
theorem inTurn (calls : List RecencyCall)
    (hclock : (RecencyCall.uses calls).length + uses.length < UInt64.size) :
    (inTurn TickTable.perform r calls).2.InStep (RecencyCall.uses calls ++ uses) ∧
      PagePool.inTurn Recency.perform r.recency calls =
        ((PagePool.inTurn TickTable.perform r calls).1,
          (PagePool.inTurn TickTable.perform r calls).2.recency) := by
  induction calls generalizing r uses with
  | nil => exact ⟨h, rfl⟩
  | cons c cs ih =>
    rw [RecencyCall.uses_cons, List.length_append] at hclock
    obtain ⟨hstep, hsame⟩ := h.perform c (by omega)
    obtain ⟨hrest, hsameRest⟩ := ih hstep (by rw [List.length_append]; omega)
    rw [RecencyCall.uses_cons, List.append_assoc]
    refine ⟨hrest, ?_⟩
    rw [PagePool.inTurn, hsame, hsameRest]
    rfl

end InStep

/-- Every history of calls leaves the three containers in step, with one stamp for each tracked page,
of its last use, and no tick twice. An eviction takes out the page that may go and was used least
recently, and nothing else; the size counts the pages that may go; and to say whether a page may go
moves no page in the order, and comes to nothing if the page is not tracked. One list of the tracked
pages gives the same answers. -/
theorem least_recent_evicted (calls : List RecencyCall)
    (hclock : (RecencyCall.uses calls).length < UInt64.size) :
    (after calls).InStep (RecencyCall.uses calls) ∧
      (∀ s ∈ (after calls).order, ∀ s' ∈ (after calls).order, s.tick = s'.tick → s = s') ∧
      (after calls).EvictsOldest ∧
      (after calls).size =
        (after calls).lastAccess.keys.countP (fun q => (after calls).evictable.contains q) ∧
      (∀ page on, ((after calls).setEvictable page on).order = (after calls).order ∧
        ((after calls).setEvictable page on).lastAccess = (after calls).lastAccess ∧
        ((after calls).lastAccess.get? page = none →
          (after calls).setEvictable page on = after calls)) ∧
      inTurn Recency.perform .empty calls =
        ((inTurn perform empty calls).1, (after calls).recency) := by
  obtain ⟨hstep, hsame⟩ := inStep_empty.inTurn calls hclock
  rw [List.append_nil] at hstep
  refine ⟨hstep, fun s hs s' hs' => hstep.eq_of_tick hs hs', hstep.evictsOldest, hstep.size_eq,
    fun page on => ⟨rfl, rfl, fun hpage => hstep.setEvictable_of_untracked hpage on⟩, hsame⟩

/-- Two pages that may go, of which the first is used again. -/
def usedAgain : List RecencyCall :=
  [.access ⟨⟨1⟩, 0⟩, .setEvictable ⟨⟨1⟩, 0⟩ true, .access ⟨⟨1⟩, 1⟩, .setEvictable ⟨⟨1⟩, 1⟩ true,
    .access ⟨⟨1⟩, 0⟩]

/-- The page that was used once goes, though it came last. -/
theorem page_used_again_stays : (after usedAgain).evict.1 = some ⟨⟨1⟩, 1⟩ := by
  obtain ⟨-, -, hevicts, -⟩ := least_recent_evicted usedAgain (by decide)
  have hboth : (after usedAgain).evictable.toList = [⟨⟨1⟩, 0⟩, ⟨⟨1⟩, 1⟩] := by decide
  refine (hevicts.victim _).2 ⟨by decide, fun p hp hne => ?_⟩
  rw [← OrdSet.mem_toList, hboth] at hp
  obtain rfl : p = ⟨⟨1⟩, 0⟩ := by simpa [hne] using hp
  exact ⟨2, 3, by decide, by decide, by decide⟩

end TickTable

end PagePool
