import PagePool.Cache.Recency

namespace PagePool.Recency

variable {r r' : Recency} {page q : PageId} {on : Bool}

theorem isTracked_iff : r.isTracked q = true ↔ ∃ e ∈ r.tracked, e.page = q := by
  simp [isTracked]

theorem isEvictable_iff :
    r.isEvictable q = true ↔ ∃ e ∈ r.tracked, e.page = q ∧ e.evictable = true := by
  simp [isEvictable]

theorem isTracked_remove :
    (r.remove page).isTracked q = true ↔ q ≠ page ∧ r.isTracked q = true := by
  simp only [isTracked_iff, remove, List.mem_filter, bne_iff_ne]
  constructor
  · rintro ⟨e, ⟨he, hne⟩, rfl⟩
    exact ⟨hne, e, he, rfl⟩
  · rintro ⟨hne, e, he, rfl⟩
    exact ⟨e, ⟨he, hne⟩, rfl⟩

theorem isEvictable_remove :
    (r.remove page).isEvictable q = true ↔ q ≠ page ∧ r.isEvictable q = true := by
  simp only [isEvictable_iff, remove, List.mem_filter, bne_iff_ne]
  constructor
  · rintro ⟨e, ⟨he, hne⟩, rfl, hon⟩
    exact ⟨hne, e, he, rfl, hon⟩
  · rintro ⟨hne, e, he, rfl, hon⟩
    exact ⟨e, ⟨he, hne⟩, rfl, hon⟩

theorem isTracked_access :
    (r.access page).isTracked q = true ↔ q = page ∨ r.isTracked q = true := by
  have hsplit : (r.access page).isTracked q = true ↔
      (r.remove page).isTracked q = true ∨ page = q := by
    simp [isTracked, access]
  rw [hsplit, isTracked_remove]
  by_cases hq : q = page
  · simp [hq]
  · simp [hq, Ne.symm hq]

/-- An access tells nothing of whether a page may go. -/
theorem isEvictable_access :
    (r.access page).isEvictable q = true ↔ r.isEvictable q = true := by
  have hsplit : (r.access page).isEvictable q = true ↔
      (r.remove page).isEvictable q = true ∨ page = q ∧ r.isEvictable page = true := by
    simp [isEvictable, access]
  rw [hsplit, isEvictable_remove]
  by_cases hq : q = page
  · simp [hq]
  · simp [hq, Ne.symm hq]

theorem isTracked_setEvictable :
    (r.setEvictable page on).isTracked q = true ↔ r.isTracked q = true := by
  have hpage (e : Tracked) :
      (if e.page = page then { e with evictable := on } else e).page = e.page := by
    split <;> rfl
  simp only [isTracked, setEvictable, List.any_map, Function.comp_def, hpage]

theorem isEvictable_setEvictable :
    (r.setEvictable page on).isEvictable q = true ↔
      if q = page then r.isTracked page = true ∧ on = true else r.isEvictable q = true := by
  have hentry (e : Tracked) :
      ((if e.page = page then { e with evictable := on } else e).page == q &&
        (if e.page = page then { e with evictable := on } else e).evictable) =
      (e.page == q && if e.page = page then on else e.evictable) := by
    split <;> rfl
  simp only [isEvictable, isTracked, setEvictable, List.any_map, Function.comp_def, hentry]
  split
  · rename_i hq
    subst hq
    simp only [List.any_eq_true, Bool.and_eq_true, beq_iff_eq]
    constructor
    · rintro ⟨e, he, rfl, hon⟩
      rw [if_pos rfl] at hon
      exact ⟨⟨e, he, rfl⟩, hon⟩
    · rintro ⟨⟨e, he, rfl⟩, hon⟩
      exact ⟨e, he, rfl, by rwa [if_pos rfl]⟩
  · rename_i hq
    simp only [List.any_eq_true, Bool.and_eq_true, beq_iff_eq]
    constructor
    · rintro ⟨e, he, rfl, hon⟩
      rw [if_neg hq] at hon
      exact ⟨e, he, rfl, hon⟩
    · rintro ⟨e, he, rfl, hon⟩
      exact ⟨e, he, rfl, by rwa [if_neg hq]⟩

theorem isEvictable_of_victim (h : r.victim? = some q) : r.isEvictable q = true := by
  obtain ⟨e, he, rfl⟩ := Option.map_eq_some_iff.1 h
  exact isEvictable_iff.2 ⟨e, List.mem_of_find?_eq_some he, rfl, List.find?_some he⟩

/-- What an eviction takes out is a page that may go. -/
theorem evict_eq_some (h : r.evict = (some q, r')) :
    r.isEvictable q = true ∧ r' = r.remove q := by
  unfold evict at h
  cases hv : r.victim? with
  | none => simp [hv] at h
  | some victim =>
    rw [hv] at h
    simp only [Prod.mk.injEq, Option.some.injEq] at h
    obtain ⟨rfl, rfl⟩ := h
    exact ⟨isEvictable_of_victim hv, rfl⟩

/-! The order of the tracked pages. -/

theorem mem_pages : q ∈ r.pages ↔ r.isTracked q = true := by
  rw [isTracked_iff, pages, List.mem_map]

theorem pages_remove (r : Recency) (page : PageId) :
    (r.remove page).pages = r.pages.filter fun q => q != page := by
  simp only [pages, remove, List.filter_map]
  rfl

theorem pages_access (r : Recency) (page : PageId) :
    (r.access page).pages = r.pages.filter (fun q => q != page) ++ [page] := by
  rw [← pages_remove]
  simp only [access, pages, List.map_append, List.map_cons, List.map_nil]

theorem pages_setEvictable (r : Recency) (page : PageId) (on : Bool) :
    (r.setEvictable page on).pages = r.pages := by
  simp only [setEvictable, pages, List.map_map]
  apply List.map_congr_left
  intro e _
  simp only [Function.comp_apply]
  split <;> rfl

theorem victim?_eq_none : r.victim? = none ↔ ∀ q, r.isEvictable q ≠ true := by
  simp only [victim?, Option.map_eq_none_iff, List.find?_eq_none, ne_eq, isEvictable_iff]
  constructor
  · rintro h q ⟨e, he, -, hon⟩
    exact h e he hon
  · exact fun h e he hon => h e.page ⟨e, he, rfl, hon⟩

/-- Where every page may go, the oldest one does. -/
theorem victim?_eq_head? (hall : ∀ q, r.isTracked q = true → r.isEvictable q = true)
    (hnodup : r.pages.Nodup) : r.victim? = r.pages.head? := by
  rcases htracked : r.tracked with _ | ⟨oldest, newer⟩
  · simp [victim?, pages, htracked]
  · rw [pages, htracked, List.map_cons, List.nodup_cons] at hnodup
    obtain ⟨e, he, hpage, hon⟩ := isEvictable_iff.1
      (hall oldest.page (isTracked_iff.2 ⟨oldest, by simp [htracked], rfl⟩))
    rw [htracked, List.mem_cons] at he
    obtain rfl := he.resolve_right fun hnewer => hnodup.1 (hpage ▸ List.mem_map_of_mem hnewer)
    simp [victim?, pages, htracked, hon]

/-- The victim stands before every other page that may go. -/
theorem victim_first {R : PageId → PageId → Prop} (hr : r.pages.Pairwise R)
    (h : r.victim? = some page) (hq : r.isEvictable q = true) (hne : q ≠ page) : R page q := by
  obtain ⟨victim, hfind, rfl⟩ := Option.map_eq_some_iff.1 h
  obtain ⟨-, older, newer, htracked, holder⟩ := List.find?_eq_some_iff_append.1 hfind
  obtain ⟨e, he, rfl, hon⟩ := isEvictable_iff.1 hq
  have hnewer : e ∈ newer := by
    rw [htracked, List.mem_append, List.mem_cons] at he
    rcases he with he | rfl | he
    · have hoff := holder e he
      rw [hon] at hoff
      contradiction
    · exact absurd rfl hne
    · exact he
  rw [pages, htracked, List.map_append, List.map_cons, List.pairwise_append] at hr
  exact (List.pairwise_cons.1 hr.2.1).1 e.page (List.mem_map_of_mem hnewer)

end PagePool.Recency
