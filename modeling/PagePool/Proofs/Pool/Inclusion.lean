import PagePool.Proofs.Pool.Eviction

namespace PagePool

variable {n c c' : Nat} {q r : PageId} {uses pages : List PageId}

/-- The last pages that were used, at most `n` of them, the latest first. The uses stand in the same
order. -/
def recent (n : Nat) (uses : List PageId) : List PageId := uses.eraseDups.take n

/-- How many of the uses are of a page that is not among the `n` recent ones. -/
def missCount (n : Nat) : List PageId → Nat
  | [] => 0
  | q :: uses => missCount n uses + if q ∈ recent n uses then 0 else 1

/-- What callers have had from a cache: the pages that they fetched, the latest first, how many of
the fetches missed, and how many pages have left. -/
structure Traffic where
  fetched : List PageId
  misses : Nat
  evictions : Nat
  deriving DecidableEq, Repr

def Traffic.zero : Traffic := ⟨[], 0, 0⟩

/-! A use brings its page to the front. -/

theorem eraseDups_filter (keep : PageId → Bool) (uses : List PageId) :
    (uses.filter keep).eraseDups = uses.eraseDups.filter keep := by
  match uses with
  | [] => rfl
  | q :: uses =>
    have hshorter : (uses.filter fun r => !r == q).length < uses.length + 1 :=
      Nat.lt_succ_of_le (List.length_filter_le _ _)
    have hrest := eraseDups_filter keep (uses.filter fun r => !r == q)
    rw [List.eraseDups_cons, List.filter_cons, List.filter_cons, ← hrest]
    split
    · rw [List.eraseDups_cons, List.filter_comm]
    · rename_i hq
      rw [List.filter_filter]
      refine congrArg List.eraseDups (List.filter_congr fun r _ => ?_)
      by_cases hr : r = q <;> simp [hr, hq]
termination_by uses.length

theorem eraseDups_cons_filter (q : PageId) (uses : List PageId) :
    (q :: uses).eraseDups = q :: uses.eraseDups.filter fun r => r != q := by
  rw [List.eraseDups_cons, ← eraseDups_filter]
  rfl

theorem nodup_eraseDups (uses : List PageId) : uses.eraseDups.Nodup := by
  induction uses with
  | nil => exact List.nodup_nil
  | cons q uses ih =>
    rw [eraseDups_cons_filter, List.nodup_cons]
    exact ⟨by simp, ih.filter _⟩

theorem nodup_recent (n : Nat) (uses : List PageId) : (recent n uses).Nodup :=
  (nodup_eraseDups uses).sublist (List.take_sublist _ _)

theorem recent_subset (h : c ≤ c') (uses : List PageId) : recent c uses ⊆ recent c' uses :=
  List.take_subset_take_left _ h

/-- A page may be taken out of a list before or after the list is cut: as it leaves one place at
most, the first `n` of the others are the same. -/
theorem take_filter_take (h : pages.Nodup) (q : PageId) (n : Nat) :
    ((pages.take (n + 1)).filter fun r => r != q).take n =
      (pages.filter fun r => r != q).take n := by
  conv_rhs => rw [← List.take_append_drop (n + 1) pages, List.filter_append, List.take_append]
  have htaken := (h.sublist (List.take_sublist (n + 1) pages)).erase_eq_filter q
  have hlength := List.le_length_erase (a := q) (l := pages.take (n + 1))
  rw [htaken, List.length_take] at hlength
  -- if anything is cut off, at least `n` pages are left without it and without `q`
  have hlater : ((pages.drop (n + 1)).filter fun r => r != q).take
      (n - ((pages.take (n + 1)).filter fun r => r != q).length) = [] := by
    by_cases hlong : n + 1 ≤ pages.length
    · rw [Nat.sub_eq_zero_of_le (by omega), List.take_zero]
    · rw [List.drop_eq_nil_of_le (by omega), List.filter_nil, List.take_nil]
  rw [hlater, List.append_nil]

theorem recent_cons (hn : 0 < n) (q : PageId) (uses : List PageId) :
    recent n (q :: uses) = (q :: (recent n uses).filter fun r => r != q).take n := by
  obtain ⟨n, rfl⟩ := Nat.exists_eq_succ_of_ne_zero (Nat.ne_of_gt hn)
  unfold recent
  rw [eraseDups_cons_filter, List.take_succ_cons, List.take_succ_cons,
    take_filter_take (nodup_eraseDups uses)]

theorem missCount_anti (h : c ≤ c') (uses : List PageId) :
    missCount c' uses ≤ missCount c uses := by
  induction uses with
  | nil => exact Nat.le_refl 0
  | cons q uses ih =>
    refine Nat.add_le_add ih ?_
    -- what is recent enough for the fewer places is so for the more
    by_cases hq : q ∈ recent c uses
    · simp [hq, recent_subset h uses hq]
    · rw [if_neg hq]
      split <;> omega

namespace Pool

/-- No cached page has been changed, and the store has missed none. -/
def Clean (p : Pool) : Prop := ∀ q, ¬ p.Pinned q

/-- The page that a call fetches if it has its turn and is granted its lock, and what it gets. -/
def fetch? (p : Pool) (c : Call) : Option (PageId × Except Error Page) :=
  match p.locks.acquire c.request, c.task.source with
  | (.granted, locks), .cache =>
    some (c.request.page, (({ p with locks } : Pool).read c.request.tid c.request.page).1)
  | _, _ => none

/-- How many pages have left the cache. -/
def lost (p p' : Pool) : Nat := p.pages.keys.countP fun q => !p'.isCached q

/-- What a fetch does where every page may go: it finds its page, or loads it to a free place, or to
that of the page that stands first in the order. -/
inductive Fetches (p p' : Pool) (q : PageId) : Prop where
  | hits : q ∈ p.recency.pages →
      p'.recency.pages = p.recency.pages.filter (fun r => r != q) ++ [q] →
      p'.stats.misses = p.stats.misses → p'.stats.evictions = p.stats.evictions → Fetches p p' q
  | loads : q ∉ p.recency.pages → p.recency.pages.length < p.capacity →
      p'.recency.pages = p.recency.pages ++ [q] →
      p'.stats.misses = p.stats.misses + 1 → p'.stats.evictions = p.stats.evictions →
      Fetches p p' q
  | replaces {oldest newer} : q ∉ p.recency.pages → p.recency.pages.length = p.capacity →
      p.recency.pages = oldest :: newer → p'.recency.pages = newer ++ [q] →
      p'.stats.misses = p.stats.misses + 1 → p'.stats.evictions = p.stats.evictions + 1 →
      Fetches p p' q

/-- The cache holds the pages of the latest fetches, in their order, and its counters tell of all
its traffic. -/
structure Recalls (p : Pool) (k : Traffic) : Prop where
  bounded : p.Bounded
  clean : p.Clean
  capacity_pos : 0 < p.capacity
  latest : p.recency.pages.reverse = recent p.capacity k.fetched
  missed : k.misses = missCount p.capacity k.fetched
  balance : k.misses = p.pages.size + k.evictions
  misses_eq : p.stats.misses = .ofNat k.misses
  evictions_eq : p.stats.evictions = .ofNat k.evictions

variable {p p' k : Pool} {page : Page} {t : TransactionId} {a : Traffic}

instance (p : Pool) : Decidable p.Clean :=
  decidable_of_iff (∀ e ∈ p.pages.entries, e.2.dirtiedBy = none ∧ e.1 ∉ p.unsynced) <| by
    constructor
    · rintro h q ⟨page, hq, hpin⟩
      obtain ⟨hclean, hsynced⟩ := h (q, page) (OrdMap.get?_eq_some_iff.1 hq)
      exact hpin.elim (fun hd => hd hclean) hsynced
    · intro h e he
      have hq := OrdMap.get?_eq_some_iff.2 he
      exact ⟨by_contra fun hd => h e.1 ⟨e.2, hq, .inl hd⟩, fun hm => h e.1 ⟨e.2, hq, .inr hm⟩⟩

/-! The pages in the order are the cached ones. -/

theorem Resident.mem_pages (h : p.Resident) : q ∈ p.recency.pages ↔ p.isCached q = true :=
  Recency.mem_pages.trans h.tracked_iff

theorem Resident.keys_perm (h : p.Resident) (hnodup : p.recency.pages.Nodup) :
    p.pages.keys.Perm p.recency.pages := by
  refine (List.perm_ext_iff_of_nodup p.pages.nodup_keys hnodup).2 fun q => ?_
  rw [← OrdMap.contains_iff, h.mem_pages]
  rfl

theorem Resident.size_eq (h : p.Resident) (hnodup : p.recency.pages.Nodup) :
    p.pages.size = p.recency.pages.length := by
  rw [OrdMap.size_eq_length_keys, (h.keys_perm hnodup).length_eq]

theorem Resident.lost_eq (h : p.Resident) (h' : p'.Resident) (hnodup : p.recency.pages.Nodup) :
    p.lost p' = p.recency.pages.countP fun q => decide (q ∉ p'.recency.pages) := by
  rw [lost, (h.keys_perm hnodup).countP_eq]
  refine List.countP_congr fun q _ => ?_
  simp [h'.mem_pages]

/-! A fetch, step by step. -/

/-- Before and after a fetch, steps that leave the order alone do not matter. -/
theorem Fetches.between {k' : Pool} (hbefore : Rests p k) (h : Fetches k k' q)
    (hafter : Rests k' p') : Fetches p p' q := by
  obtain ⟨hpages, hcapacity, hmisses, hevictions⟩ := hbefore
  obtain ⟨hpages', -, hmisses', hevictions'⟩ := hafter
  cases h with
  | hits hq horder hm he =>
    rw [hpages] at hq horder
    exact .hits hq (hpages'.trans horder) (by rw [hmisses', hm, hmisses])
      (by rw [hevictions', he, hevictions])
  | loads hq hroom horder hm he =>
    rw [hpages] at hq hroom horder
    exact .loads hq (hcapacity ▸ hroom) (hpages'.trans horder) (by rw [hmisses', hm, hmisses])
      (by rw [hevictions', he, hevictions])
  | replaces hq hfull hold horder hm he =>
    rw [hpages] at hq hfull hold
    exact .replaces hq (hfull.trans hcapacity) hold (hpages'.trans horder)
      (by rw [hmisses', hm, hmisses]) (by rw [hevictions', he, hevictions])

/-- In a clean cache, what makes way is the page that stands first. -/
theorem evict_clean (h : p.Bounded) (hclean : p.Clean) (hnodup : p.recency.pages.Nodup)
    (he : p.evict = .ok p') :
    ∃ oldest newer, p.recency.pages = oldest :: newer ∧ p'.recency.pages = newer ∧
      p'.stats = { p.stats with evictions := p.stats.evictions + 1 } := by
  have hall (q : PageId) (hq : p.recency.isTracked q = true) : p.recency.isEvictable q = true :=
    h.resident.evictable_iff_not_pinned.2 ⟨h.resident.tracked_iff.1 hq, hclean q⟩
  have hvictim := Recency.victim?_eq_head? hall hnodup
  unfold Pool.evict Recency.evict at he
  cases hpages : p.recency.pages with
  | nil => simp [hvictim, hpages] at he
  | cons oldest newer =>
    simp only [hvictim, hpages, List.head?_cons] at he
    obtain rfl := Except.ok.inj he
    refine ⟨oldest, newer, rfl, ?_, rfl⟩
    rw [hpages, List.nodup_cons] at hnodup
    refine (Recency.pages_remove _ _).trans ?_
    rw [hpages, List.filter_cons_of_neg (by simp), List.filter_bne_eq_self_of_not_mem hnodup.1]

theorem fetches_read (h : p.Bounded) (hclean : p.Clean) (hnodup : p.recency.pages.Nodup)
    (hr : p.read t q = (.ok page, p')) : Fetches p p' q := by
  have hmiss : Rereads p (p.afterMiss t) := .of_cache h rfl rfl rfl rfl
  rcases read_cases p t q with
    ⟨cached, hq, ho⟩ | ⟨hq, ⟨e, ho⟩ | ⟨k, hroom, ⟨e, ho⟩ | ⟨stored, hs, ho⟩⟩⟩
  · obtain rfl := (Prod.mk.inj (ho.symm.trans hr)).2
    exact .hits (h.resident.mem_pages.2 (isCached_iff.2 ⟨cached, hq⟩)) (Recency.pages_access _ _)
      rfl rfl
  · cases ho.symm.trans hr
  · cases ho.symm.trans hr
  · obtain rfl := (Prod.mk.inj (ho.symm.trans hr)).2
    obtain ⟨d, rfl⟩ := Catalog.eq_ofStored_of_readPage hs
    have habsent : q ∉ p.recency.pages := by
      rw [h.resident.mem_pages, Bool.not_eq_true]
      exact isCached_eq_false.2 hq
    -- an access to a page that is not in the order only appends it
    have hadded (hk : q ∉ k.recency.pages) :
        (k.addClean (.ofStored q d)).recency.pages = k.recency.pages ++ [q] := by
      refine (Recency.pages_setEvictable _ _ _).trans ((Recency.pages_access _ _).trans ?_)
      exact congrArg (· ++ [q]) (List.filter_bne_eq_self_of_not_mem hk)
    unfold makeRoom at hroom
    split at hroom
    · rename_i hlt
      obtain rfl := Except.ok.inj hroom
      refine .loads habsent ?_ (hadded habsent) rfl rfl
      exact h.resident.size_eq hnodup ▸ hlt
    · rename_i hfull
      obtain ⟨oldest, newer, hold, hpages, hstats⟩ :=
        evict_clean hmiss.bounded (fun r => hclean r) hnodup hroom
      have hold : p.recency.pages = oldest :: newer := hold
      refine .replaces habsent ?_ hold ((hadded ?_).trans (congrArg (· ++ [q]) hpages)) ?_ ?_
      · have hsize := h.size_le
        have hfull : ¬ p.pages.size < p.capacity := hfull
        rw [← h.resident.size_eq hnodup]
        omega
      · rw [hpages]
        exact fun hq => habsent (hold ▸ List.mem_cons_of_mem _ hq)
      · exact congrArg Statistics.misses hstats
      · exact congrArg Statistics.evictions hstats

namespace Fetches

theorem order (h : Fetches p p' q) (hnodup : p.recency.pages.Nodup)
    (hlength : p.recency.pages.length ≤ p.capacity) :
    p'.recency.pages.reverse =
      (q :: p.recency.pages.reverse.filter fun r => r != q).take p.capacity := by
  have hkept (hq : q ∉ p.recency.pages) :
      (p.recency.pages.reverse.filter fun r => r != q) = p.recency.pages.reverse :=
    List.filter_bne_eq_self_of_not_mem (mt List.mem_reverse.1 hq)
  cases h with
  | hits hq hpages _ _ =>
    have herase := List.length_erase_of_mem hq
    have hpos := List.length_pos_of_mem hq
    rw [hnodup.erase_eq_filter] at herase
    rw [hpages, List.reverse_append, ← List.filter_reverse, List.take_of_length_le]
    · rfl
    · rw [List.filter_reverse, List.length_cons, List.length_reverse, herase]
      omega
  | loads hq hroom hpages _ _ =>
    rw [hpages, hkept hq, List.reverse_append, List.take_of_length_le]
    · rfl
    · rw [List.length_cons, List.length_reverse]
      exact hroom
  | @replaces oldest newer hq hfull hold hpages _ _ =>
    have hcapacity : p.capacity = newer.reverse.length + 1 := by
      rw [← hfull, hold, List.length_cons, List.length_reverse]
    have hlast : (oldest :: newer).reverse = newer.reverse ++ [oldest] := List.reverse_cons
    rw [hkept hq, hcapacity, hold, hlast, List.take_succ_cons, List.take_left' rfl, hpages,
      List.reverse_append]
    rfl

/-- Each miss adds a page, and each page that left has been counted. -/
theorem counts (h : Fetches p p' q) (hp : p.Resident) (hp' : p'.Resident)
    (hnodup : p.recency.pages.Nodup) (hnodup' : p'.recency.pages.Nodup) :
    p'.pages.size + p.lost p' = p.pages.size + (if p.isCached q then 0 else 1) ∧
      p'.stats.misses = p.stats.misses + .ofNat (if p.isCached q then 0 else 1) ∧
      p'.stats.evictions = p.stats.evictions + .ofNat (p.lost p') := by
  have hstays (pages : List PageId) (hin : ∀ r ∈ pages, r ∈ p'.recency.pages) :
      (pages.countP fun r => decide (r ∉ p'.recency.pages)) = 0 := by
    refine List.countP_eq_zero.2 fun r hr => ?_
    simpa using hin r hr
  rw [hp.lost_eq hp' hnodup, hp.size_eq hnodup, hp'.size_eq hnodup']
  cases h with
  | hits hq hpages hmisses hevictions =>
    have hcached := hp.mem_pages.1 hq
    have herase := List.length_erase_of_mem hq
    have hpos := List.length_pos_of_mem hq
    rw [hnodup.erase_eq_filter] at herase
    have hlost := hstays p.recency.pages fun r hr => by
      rw [hpages]
      by_cases hrq : r = q <;> simp [hr, hrq]
    have hlength : p'.recency.pages.length = p.recency.pages.length := by
      rw [hpages, List.length_append, herase, List.length_singleton]
      omega
    rw [hlost, hlength, hmisses, hevictions]
    simp [hcached]
  | loads hq hroom hpages hmisses hevictions =>
    have habsent : p.isCached q ≠ true := fun hc => hq (hp.mem_pages.2 hc)
    have hlost := hstays p.recency.pages fun r hr => by
      rw [hpages]
      exact List.mem_append_left _ hr
    rw [hlost, hmisses, hevictions, hpages, List.length_append]
    simp [habsent]
  | @replaces oldest newer hq hfull hold hpages hmisses hevictions =>
    have habsent : p.isCached q ≠ true := fun hc => hq (hp.mem_pages.2 hc)
    have hgone : oldest ∉ p'.recency.pages := by
      rw [hold, List.nodup_cons] at hnodup
      rw [hold, List.mem_cons, not_or] at hq
      rw [hpages, List.mem_append, List.mem_singleton]
      exact fun ho => ho.elim hnodup.1 fun he => hq.1 he.symm
    have hlost := hstays newer fun r hr => by
      rw [hpages]
      exact List.mem_append_left _ hr
    -- of the pages before, only the oldest is not among those after
    have hcount : ((oldest :: newer).countP fun r => decide (r ∉ p'.recency.pages)) = 1 := by
      rw [List.countP_cons, hlost]
      simp [hgone]
    rw [hold, hcount, hmisses, hevictions, hpages, List.length_append]
    simp [habsent]

end Fetches

namespace Recalls

theorem nodup (h : p.Recalls a) : p.recency.pages.Nodup :=
  List.pairwise_reverse.1 (h.latest ▸ (nodup_recent _ _).imp Ne.symm)

/-- Whatever leaves the order alone is no traffic. -/
theorem rest (h : p.Recalls a) (hr : Rests p p') (hbounded : p'.Bounded) (hclean : p'.Clean) :
    p'.Recalls { a with evictions := a.evictions + p.lost p' } := by
  have hnodup' : p'.recency.pages.Nodup := hr.pages_eq ▸ h.nodup
  have hlost : p.lost p' = 0 := by
    rw [h.bounded.resident.lost_eq hbounded.resident h.nodup, hr.pages_eq]
    exact List.countP_eq_zero.2 fun r hr => by simpa using hr
  have hsize : p'.pages.size = p.pages.size := by
    rw [hbounded.resident.size_eq hnodup', h.bounded.resident.size_eq h.nodup, hr.pages_eq]
  rw [hlost, Nat.add_zero]
  refine ⟨hbounded, hclean, hr.capacity_eq ▸ h.capacity_pos, ?_, ?_, ?_, ?_, ?_⟩
  · rw [hr.pages_eq, hr.capacity_eq]
    exact h.latest
  · exact hr.capacity_eq ▸ h.missed
  · exact hsize ▸ h.balance
  · exact hr.misses_eq.trans h.misses_eq
  · exact hr.evictions_eq.trans h.evictions_eq

/-- A fetch brings its page to the end of the order. -/
theorem fetch (h : p.Recalls a) (hf : Fetches p p' q) (hbounded : p'.Bounded) (hclean : p'.Clean)
    (hcapacity : p'.capacity = p.capacity) :
    p'.Recalls ⟨q :: a.fetched, a.misses + (if p.isCached q then 0 else 1),
      a.evictions + p.lost p'⟩ := by
  have hresident := h.bounded.resident
  have hcached : q ∈ recent p.capacity a.fetched ↔ p.isCached q = true := by
    rw [← h.latest, List.mem_reverse, hresident.mem_pages]
  have hlatest : p'.recency.pages.reverse = recent p'.capacity (q :: a.fetched) := by
    rw [hcapacity, recent_cons h.capacity_pos, ← h.latest]
    exact hf.order h.nodup (hresident.size_eq h.nodup ▸ h.bounded.size_le)
  have hnodup' : p'.recency.pages.Nodup :=
    List.pairwise_reverse.1 (hlatest ▸ (nodup_recent _ _).imp Ne.symm)
  obtain ⟨hsize, hmisses, hevictions⟩ :=
    hf.counts hresident hbounded.resident h.nodup hnodup'
  refine ⟨hbounded, hclean, hcapacity ▸ h.capacity_pos, hlatest, ?_, ?_, ?_, ?_⟩
  · simp only [missCount, hcapacity, h.missed, hcached]
  · have hbalance := h.balance
    simp only
    omega
  · rw [hmisses, h.misses_eq, UInt64.ofNat_add]
  · rw [hevictions, h.evictions_eq, UInt64.ofNat_add]

theorem isCached_iff (h : p.Recalls a) :
    p.isCached q = true ↔ q ∈ recent p.capacity a.fetched := by
  rw [← h.latest, List.mem_reverse, h.bounded.resident.mem_pages]

theorem size_eq (h : p.Recalls a) : p.pages.size = min p.capacity a.fetched.eraseDups.length := by
  rw [h.bounded.resident.size_eq h.nodup, ← List.length_reverse, h.latest, recent, List.length_take]

variable {a' : Traffic}

/-- After the same fetches, a larger cache has missed no more. -/
theorem misses_anti (h : p.Recalls a) (h' : p'.Recalls a') (hle : p.capacity ≤ p'.capacity)
    (hsame : a'.fetched = a.fetched) : a'.misses ≤ a.misses := by
  rw [h.missed, h'.missed, hsame]
  exact missCount_anti hle _

/-- What a cache has evicted is what it has missed and no longer holds. -/
theorem evictions_anti (h : p.Recalls a) (h' : p'.Recalls a') (hle : p.capacity ≤ p'.capacity)
    (hsame : a'.fetched = a.fetched) : a'.evictions ≤ a.evictions := by
  have hmisses := h.misses_anti h' hle hsame
  -- the larger cache has loaded no more, and keeps at least as much of it
  have hbalance := h.balance
  have hbalance' := h'.balance
  have hsize := h.size_eq
  have hsize' := h'.size_eq
  rw [hsame] at hsize'
  omega

end Recalls

theorem recalls_make {capacity : Nat} {catalog : Catalog} {journal : Journal}
    (h : make capacity catalog journal = .ok p) : p.Recalls .zero ∧ p.capacity = capacity := by
  obtain ⟨hbounded, hcapacity⟩ := bounded_make h
  obtain ⟨hpos, rfl⟩ := make_eq_ok h
  exact ⟨⟨hbounded, nofun, hpos, List.take_nil.symm, rfl, rfl, rfl, rfl⟩, hcapacity⟩

/-! A turn that changes no page is a fetch, or it leaves the order alone. -/

theorem pinned_install (hi : p.install t page = .ok p') : p'.Pinned page.id := by
  have hdirty (k : Pool) : (k.addDirty t page).Pinned page.id :=
    ⟨page.markDirty t, (OrdMap.get?_insert _ _ _ _).trans (if_pos rfl), .inl nofun⟩
  unfold install at hi
  split at hi
  · cases hroom : p.makeRoomFor page.id with
    | error e => simp [hroom, Except.map] at hi
    | ok k =>
      rw [hroom] at hi
      exact Except.ok.inj hi ▸ hdirty k
  · contradiction

/-- What is installed is pinned, and stays so. -/
theorem rests_installAll (h : p.Bounded) {pages : List Page}
    (hclean : (p.installAll t pages).2.Clean) : Rests p (p.installAll t pages).2 := by
  cases pages with
  | nil => exact .refl p
  | cons page pages =>
    unfold installAll at hclean ⊢
    cases hi : p.install t page with
    | error e => exact .refl p
    | ok k =>
      rw [hi] at hclean
      have hlater := Spares.installAll (Spares.install h hi).bounded t pages
      exact absurd (hlater.pinned (pinned_install hi)) (hclean page.id)

theorem rests_resume (h : p.Bounded) (c : Call) (hclean : (p.resume c).2.Clean) :
    ∃ found k, p.obtain c.request c.task.source = (found, k) ∧ Rests k (p.resume c).2 := by
  obtain ⟨found, k, hobtain, ⟨locks, catalog, hresume⟩ | ⟨pages, hresume⟩⟩ := pool_resume p c
  · exact ⟨found, k, hobtain, hresume ▸ ⟨rfl, rfl, rfl, rfl⟩⟩
  · rw [hresume] at hclean ⊢
    exact ⟨found, k, hobtain, rests_installAll (Rereads.obtain h hobtain).bounded hclean⟩

theorem turn_fetches (h : p.Bounded) (c : Call) (hclean : (p.runCall 1 c).2.Clean) :
    p.fetch? c = none ∧ Rests p (p.runCall 1 c).2 ∨
    ∃ found locks k, p.fetch? c = some (c.request.page, found) ∧
      ({ p with locks } : Pool).read c.request.tid c.request.page = (found, k) ∧
      Rests k (p.runCall 1 c).2 := by
  rcases ha : p.locks.acquire c.request with ⟨attempt, locks⟩
  cases attempt with
  | waits =>
    simp only [fetch?, runCall, ha]
    exact .inl ⟨trivial, rfl, rfl, rfl, rfl⟩
  | deadlock =>
    simp only [fetch?, runCall, ha]
    exact .inl ⟨trivial, rfl, rfl, rfl, rfl⟩
  | granted =>
    have hresumes : (p.runCall 1 c).2 = (({ p with locks } : Pool).resume c).2 := by
      simp only [runCall, ha]
      rcases ({ p with locks } : Pool).resume c with ⟨progress, k⟩
      cases progress <;> rfl
    rw [hresumes] at hclean ⊢
    obtain ⟨found, k, hobtain, hrests⟩ := rests_resume (Rereads.locks h locks).bounded c hclean
    cases hsource : c.task.source with
    | cache =>
      rw [hsource] at hobtain
      have hread : ({ p with locks } : Pool).read c.request.tid c.request.page = (found, k) :=
        hobtain
      refine .inr ⟨found, locks, k, ?_, hread, hrests⟩
      simp only [fetch?, ha, hsource, hread]
    | store =>
      rw [hsource] at hobtain
      obtain rfl : { p with locks } = k := (Prod.mk.inj hobtain).2
      have hlocked : Rests p { p with locks } := ⟨rfl, rfl, rfl, rfl⟩
      refine .inl ⟨?_, hlocked.trans hrests⟩
      simp only [fetch?, ha, hsource]

end Pool

namespace World

/-- The page that a turn fetches, and what it gets. -/
def fetch? (w : World) : Action → Option (PageId × Except Error Page)
  | .turn i => w.session.pending[i]?.bind fun waiting => w.pool.fetch? waiting.call
  | _ => none

/-- Keeps the account of what is fetched, what of it is not cached, and what leaves the cache. -/
def traffic (w : World) (k : Traffic) (a : Action) : Traffic :=
  let evictions := k.evictions + w.pool.lost (w.perform a).pool
  match w.fetch? a with
  | none => { k with evictions }
  | some (q, _) =>
    { fetched := q :: k.fetched
      misses := k.misses + if w.pool.isCached q then 0 else 1
      evictions }

/-- What callers keep to who only read: whatever page they fetch is there to be read, nobody drops a
cached page, and none comes to be changed or missed by the store. -/
structure ReadsOnly (w : World) (a : Action) : Prop where
  finds : ∀ x ∈ w.fetch? a, x.2.isOk = true
  keeps : ∀ q, a ≠ .discard q
  clean : (w.perform a).pool.Clean

instance (a : Action) : Decidable (∀ q, a ≠ .discard q) :=
  match a with
  | .discard q => isFalse fun h => h q rfl
  | .begin | .call _ _ | .turn _ | .complete _ _ | .flush _ | .flushAll | .flushOf _
  | .releaseLock _ _ | .failStore _ _ | .failLog _ _ => isTrue nofun

instance (w : World) (a : Action) : Decidable (w.ReadsOnly a) :=
  decidable_of_iff ((∀ x ∈ w.fetch? a, x.2.isOk = true) ∧ (∀ q, a ≠ .discard q) ∧
      (w.perform a).pool.Clean)
    ⟨fun h => ⟨h.1, h.2.1, h.2.2⟩, fun h => ⟨h.finds, h.keeps, h.clean⟩⟩

variable {w w' : World} {a : Action} {k k' : Traffic} {p p' : Pool}

theorem traffic_of_rest (h : w.fetch? a = none) :
    w.traffic k a = { k with evictions := k.evictions + w.pool.lost (w.perform a).pool } := by
  simp only [traffic, h]

theorem recalls_turn (h : w.pool.Recalls k) {i : Nat} (ha : w.ReadsOnly (.turn i)) :
    (w.turn i).2.pool.Recalls (w.traffic k (.turn i)) := by
  obtain ⟨hbounded, hcapacity, -⟩ := bounded_perform h.bounded (.turn i)
  cases hi : w.session.pending[i]? with
  | none =>
    have hnone : w.fetch? (.turn i) = none := by simp only [fetch?, hi, Option.bind_none]
    rw [traffic_of_rest hnone]
    refine h.rest ?_ hbounded ha.clean
    rw [turn_of_absent hi]
    exact .refl _
  | some waiting =>
    have hpool := pool_turn hi
    have hclean : (w.pool.runCall 1 waiting.call).2.Clean := hpool ▸ ha.clean
    have hsame : w.fetch? (.turn i) = w.pool.fetch? waiting.call := by
      simp only [fetch?, hi, Option.bind_some]
    rcases Pool.turn_fetches h.bounded waiting.call hclean with
      ⟨hnone, hrests⟩ | ⟨found, locks, read, hfetch, hread, hrests⟩
    · rw [traffic_of_rest (hsame.trans hnone)]
      exact h.rest (hpool ▸ hrests) hbounded ha.clean
    · cases found with
      | error e => cases ha.finds _ (hsame.trans hfetch)
      | ok page =>
        -- the lock that comes first is not part of the cache
        have hlocked : Pool.Rests w.pool { w.pool with locks } := ⟨rfl, rfl, rfl, rfl⟩
        have hread := Pool.fetches_read (Pool.Rereads.locks h.bounded locks).bounded
          (fun q => h.clean q) h.nodup hread
        have hfetches := hread.between hlocked (hpool ▸ hrests)
        simp only [traffic, hsame, hfetch]
        exact h.fetch hfetches hbounded ha.clean hcapacity

/-- A step of callers who only read is a fetch, or leaves the order of the cache alone. -/
theorem recalls_perform (h : w.pool.Recalls k) (ha : w.ReadsOnly a) :
    (w.perform a).pool.Recalls (w.traffic k a) := by
  have hrest (hnone : w.fetch? a = none) (hrests : Pool.Rests w.pool (w.perform a).pool) :
      (w.perform a).pool.Recalls (w.traffic k a) := by
    rw [traffic_of_rest hnone]
    exact h.rest hrests (bounded_perform h.bounded a).1 ha.clean
  cases a with
  | begin => exact hrest rfl ⟨rfl, rfl, rfl, rfl⟩
  | call step c =>
    refine hrest rfl ?_
    simp only [perform]
    rw [pool_issue]
    obtain ⟨catalog, ⟨result, hs⟩ | ⟨call, hs, -⟩⟩ := Pool.start_cases w.pool c
    · exact hs ▸ ⟨rfl, rfl, rfl, rfl⟩
    · exact hs ▸ ⟨rfl, rfl, rfl, rfl⟩
  | turn i => exact recalls_turn h ha
  | complete t commit => exact hrest rfl (.complete w.pool t commit)
  | flush q => exact hrest rfl (.flush w.pool q)
  | flushAll => exact hrest rfl (.flushEach w.pool _)
  | flushOf t => exact hrest rfl (.flushEach w.pool _)
  | discard q => exact absurd rfl (ha.keeps q)
  | releaseLock t q => exact hrest rfl ⟨rfl, rfl, rfl, rfl⟩
  | failStore table faults =>
    refine hrest rfl ?_
    simp only [perform]
    cases w.pool.catalog.setFaults table faults with
    | error e => exact .refl _
    | ok catalog => exact ⟨rfl, rfl, rfl, rfl⟩
  | failLog refuses forceFails => exact hrest rfl ⟨rfl, rfl, rfl, rfl⟩

theorem Tallies.recalls {capacity : Nat} {catalog : Catalog} {journal : Journal}
    (hp : Pool.make capacity catalog journal = .ok p)
    (hw : Tallies traffic ReadsOnly (ofPool p) .zero w k) :
    w.pool.Recalls k ∧ w.pool.capacity = capacity := by
  induction hw with
  | refl => exact Pool.recalls_make hp
  | step _ ha ih =>
    exact ⟨recalls_perform ih.1 ha, (bounded_perform ih.1.bounded _).2.1.trans ih.2⟩

/-- While callers only read, the cache holds the pages they fetched last, as many of them as fit. So
of two caches that are asked for the same pages, the larger one holds all that the smaller one does
at any time, and neither misses nor evicts more. -/
theorem caches_latest_fetched {capacity : Nat} {catalog : Catalog} {journal : Journal}
    (hp : Pool.make capacity catalog journal = .ok p)
    (hw : Tallies traffic ReadsOnly (ofPool p) .zero w k) :
    (∀ q, w.pool.isCached q = true ↔ q ∈ recent capacity k.fetched) ∧
    w.pool.pages.size = min capacity k.fetched.eraseDups.length ∧
    w.pool.stats.misses = .ofNat k.misses ∧ w.pool.stats.evictions = .ofNat k.evictions ∧
    ∀ {capacity' : Nat} {catalog' : Catalog} {journal' : Journal} {p' : Pool} {w' : World}
      {k' : Traffic}, capacity ≤ capacity' →
      Pool.make capacity' catalog' journal' = .ok p' →
      Tallies traffic ReadsOnly (ofPool p') .zero w' k' → k'.fetched = k.fetched →
      (∀ q, w.pool.isCached q = true → w'.pool.isCached q = true) ∧
        k'.misses ≤ k.misses ∧ k'.evictions ≤ k.evictions := by
  obtain ⟨hrecalls, rfl⟩ := hw.recalls hp
  refine ⟨fun q => hrecalls.isCached_iff, hrecalls.size_eq, hrecalls.misses_eq,
    hrecalls.evictions_eq, ?_⟩
  intro capacity' catalog' journal' p' w' k' hle hp' hw' hsame
  obtain ⟨hrecalls', rfl⟩ := hw'.recalls hp'
  refine ⟨?_, hrecalls.misses_anti hrecalls' hle hsame, hrecalls.evictions_anti hrecalls' hle hsame⟩
  intro q hq
  rw [hrecalls.isCached_iff] at hq
  rw [hrecalls'.isCached_iff, hsame]
  exact recent_subset hle _ hq

/-- A pool over one table of two pages, each with room for one tuple of one byte. -/
def twoPages (capacity : Nat) : Pool :=
  { capacity, pages := .empty, recency := .empty, active := .empty, unsynced := .empty
    locks := .empty
    catalog :=
      ⟨OrdMap.empty.insert ⟨1⟩ ⟨⟨1⟩, ⟨1, 1⟩, ⟨"t", 2, 2⟩, .none⟩, 2, 2, ⟨[("t", [0, 0, 0, 0])]⟩⟩
    journal := .ofMedium (.memory .empty), stats := .zero, nextTid := 1 }

/-- Transaction 1 reads the first page, the second one, and the first one again. -/
def toAndFro : List Action :=
  [.call 0 (.fetch ⟨1⟩ ⟨⟨1⟩, 0⟩ .readOnly), .turn 0,
    .call 1 (.fetch ⟨1⟩ ⟨⟨1⟩, 1⟩ .readOnly), .turn 0,
    .call 2 (.fetch ⟨1⟩ ⟨⟨1⟩, 0⟩ .readOnly), .turn 0]

/-- With room for one page, each of three reads misses; with room for two, the last one hits. -/
theorem second_place_saves_miss :
    let small := (ofPool (twoPages 1)).performAll toAndFro
    let large := (ofPool (twoPages 2)).performAll toAndFro
    small.pool.stats.misses = 3 ∧ large.pool.stats.misses = 2 ∧
      ∀ q, small.pool.isCached q = true → large.pool.isCached q = true := by
  have hmade (n : Nat) : Pool.make (n + 1) (twoPages 1).catalog (twoPages 1).journal =
      .ok (twoPages (n + 1)) := rfl
  have hsmall : Tallies traffic ReadsOnly (ofPool (twoPages 1)) .zero _ _ :=
    Tallies.refl.performAll (by decide : Follows ReadsOnly (ofPool (twoPages 1)) toAndFro)
  have hlarge : Tallies traffic ReadsOnly (ofPool (twoPages 2)) .zero _ _ :=
    Tallies.refl.performAll (by decide : Follows ReadsOnly (ofPool (twoPages 2)) toAndFro)
  obtain ⟨-, -, hmisses, -, hlarger⟩ := caches_latest_fetched (hmade 0) hsmall
  obtain ⟨-, -, hmisses', -⟩ := caches_latest_fetched (hmade 1) hlarge
  exact ⟨hmisses, hmisses', (hlarger (by decide) (hmade 1) hlarge rfl).1⟩

end World

end PagePool
