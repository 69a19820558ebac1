import Mathlib.Data.List.Chain
import Mathlib.Logic.Relation
import PagePool.Lock.WaitsFor

namespace PagePool.WaitsFor

open Relation

/-- `w` waits on `h`. -/
def Edge (g : WaitsFor) (w h : TransactionId) : Prop := ∃ hs, g.waitsOn? w = some hs ∧ h ∈ hs

variable {g : WaitsFor} {t w h : TransactionId} {hs : OrdSet TransactionId}

theorem not_edge_empty : ¬empty.Edge w h := by
  rintro ⟨hs, hw, -⟩
  simp [waitsOn?, empty] at hw

theorem edge_clear : (g.clear t).Edge w h ↔ w ≠ t ∧ g.Edge w h := by
  simp only [Edge, waitsOn?_clear]
  by_cases hw : w = t <;> simp [hw]

theorem edge_setWaits : (g.setWaits t hs).Edge w h ↔ w = t ∧ h ∈ hs ∨ w ≠ t ∧ g.Edge w h := by
  simp only [Edge, waitsOn?_setWaits]
  by_cases hw : w = t
  · by_cases he : hs.isEmpty = true
    · simp [hw, he, OrdSet.isEmpty_iff.1 he h]
    · simp [hw, he]
  · simp [hw]

theorem edge_remove : (g.remove t).Edge w h ↔ w ≠ t ∧ h ≠ t ∧ g.Edge w h := by
  simp only [Edge, waitsOn?_remove]
  by_cases hw : w = t
  · simp [hw]
  · simp only [hw, if_false, Option.filter_eq_some_iff, Option.map_eq_some_iff, ne_eq,
      not_false_eq_true, true_and]
    constructor
    · rintro ⟨_, ⟨⟨hs, hg, rfl⟩, -⟩, hmem⟩
      obtain ⟨hne, hmem⟩ := OrdSet.mem_erase.1 hmem
      exact ⟨hne, hs, hg, hmem⟩
    · rintro ⟨hne, hs, hg, hmem⟩
      have hmem' : h ∈ hs.erase t := OrdSet.mem_erase.2 ⟨hne, hmem⟩
      refine ⟨hs.erase t, ⟨⟨hs, hg, rfl⟩, ?_⟩, hmem'⟩
      simpa using mt OrdSet.isEmpty_iff.1 (fun hall => hall h hmem')

/-- The search only follows edge lists of the graph, so what it finds is reached from where it
started. -/
theorem reflTransGen_of_reaches {rounds : Nat} {edges : List (TransactionId × OrdSet TransactionId)}
    {seen : List TransactionId} (hsub : ∀ e ∈ edges, e ∈ g.edges.entries)
    (hr : reaches t rounds edges seen = true) : ∃ x ∈ seen, ReflTransGen g.Edge x t := by
  induction rounds generalizing edges seen with
  | zero => exact ⟨t, by simpa [reaches] using hr, .refl⟩
  | succ rounds ih =>
    rw [reaches, Bool.or_eq_true] at hr
    rcases hr with hr | hr
    · exact ⟨t, by simpa using hr, .refl⟩
    · cases hf : edges.find? fun e => seen.contains e.1 with
      | none =>
        rw [hf] at hr
        exact absurd hr Bool.false_ne_true
      | some e =>
        simp only [hf] at hr
        have he : e.1 ∈ seen := by simpa using List.find?_some hf
        have hedge : g.waitsOn? e.1 = some e.2 :=
          OrdMap.get?_eq_some_iff.2 (hsub e (List.mem_of_find?_eq_some hf))
        -- the lists of the vertex that was expanded are gone in the next round
        obtain ⟨x, hx, hpath⟩ := ih (fun f hfm => hsub f (List.mem_filter.1 hfm).1) hr
        rcases List.mem_append.1 hx with hx | hx
        · exact ⟨e.1, he, .head ⟨e.2, hedge, OrdSet.mem_toList.1 hx⟩ hpath⟩
        · exact ⟨x, hx, hpath⟩

theorem exists_path_of_wouldDeadlock (hd : g.wouldDeadlock t hs = true) :
    ∃ h ∈ hs, ReflTransGen g.Edge h t := by
  obtain ⟨h, hmem, hpath⟩ := reflTransGen_of_reaches (fun e he => he) hd
  exact ⟨h, OrdSet.mem_toList.1 hmem, hpath⟩

/-- A way that starts in a closed part of the graph stays in it. -/
theorem mem_of_reflTransGen {seen : List TransactionId} {x : TransactionId}
    (hclosed : ∀ y ∈ seen, ∀ z, g.Edge y z → z ∈ seen) (hx : x ∈ seen)
    (hpath : ReflTransGen g.Edge x t) : t ∈ seen := by
  induction hpath with
  | refl => exact hx
  | tail _ hyz ih => exact hclosed _ ih _ hyz

/-- The search misses nothing. The edge lists that it has used up lead to what it has seen, so
once it finds no further one it has seen all that it can get to. -/
theorem reaches_of_reflTransGen {rounds : Nat}
    {edges : List (TransactionId × OrdSet TransactionId)} {seen : List TransactionId}
    {x : TransactionId} (hrounds : edges.length ≤ rounds) (hsub : ∀ e ∈ edges, e ∈ g.edges.entries)
    (hused : ∀ e ∈ g.edges.entries, e ∈ edges ∨ ∀ h ∈ e.2, h ∈ seen) (hx : x ∈ seen)
    (hpath : ReflTransGen g.Edge x t) : reaches t rounds edges seen = true := by
  have hfound {edges : List (TransactionId × OrdSet TransactionId)} {seen : List TransactionId}
      (hused : ∀ e ∈ g.edges.entries, e ∈ edges ∨ ∀ h ∈ e.2, h ∈ seen) (hx : x ∈ seen)
      (hnone : ∀ e ∈ edges, e.1 ∉ seen) : t ∈ seen := by
    refine mem_of_reflTransGen (fun y hy z => ?_) hx hpath
    rintro ⟨hs, hget, hz⟩
    have hentry : (y, hs) ∈ g.edges.entries := OrdMap.get?_eq_some_iff.1 hget
    exact (hused _ hentry).resolve_left (fun hleft => hnone _ hleft hy) z hz
  induction rounds generalizing edges seen with
  | zero =>
    obtain rfl : edges = [] := List.length_eq_zero_iff.1 (Nat.le_zero.1 hrounds)
    simpa [reaches] using hfound hused hx nofun
  | succ rounds ih =>
    rw [reaches, Bool.or_eq_true]
    cases hf : edges.find? fun e => seen.contains e.1 with
    | none =>
      have hnone : ∀ e ∈ edges, e.1 ∉ seen := by simpa using hf
      exact .inl (by simpa using hfound hused hx hnone)
    | some e =>
      have hmem := List.mem_of_find?_eq_some hf
      have hshorter : (edges.filter fun f => f.1 != e.1).length < edges.length :=
        List.length_filter_lt_length_iff_exists.2 ⟨e, hmem, by simp⟩
      refine .inr (ih (by omega) (fun f hleft => hsub f (List.mem_filter.1 hleft).1)
        (fun f hentry => ?_) (List.mem_append_right _ hx))
      rcases hused f hentry with hleft | hseen
      · by_cases hfe : f.1 = e.1
        · -- the one list of the vertex is what has been used up
          obtain rfl := OrdMap.eq_of_mem_entries hentry (hsub e hmem) hfe
          exact .inr fun h hh => List.mem_append_left _ (OrdSet.mem_toList.2 hh)
        · exact .inl (List.mem_filter.2 ⟨hleft, by simpa using hfe⟩)
      · exact .inr fun h hh => List.mem_append_right _ (hseen h hh)

theorem wouldDeadlock_iff : g.wouldDeadlock t hs = true ↔ ∃ h ∈ hs, ReflTransGen g.Edge h t := by
  refine ⟨exists_path_of_wouldDeadlock, ?_⟩
  rintro ⟨h, hmem, hpath⟩
  exact reaches_of_reflTransGen (Nat.le_refl _) (fun _ => id) (fun _ => .inl)
    (OrdSet.mem_toList.2 hmem) hpath

/-- A way from one vertex to another, cut where it first arrives. -/
theorem exists_chain_of_reflTransGen {α : Type} {R : α → α → Prop} {a b : α}
    (h : ReflTransGen R a b) (hne : a ≠ b) :
    ∃ path, (a :: path ++ [b]).IsChain R ∧ b ∉ a :: path := by
  induction h using ReflTransGen.head_induction_on with
  | refl => exact absurd rfl hne
  | @head a c hac _ ih =>
    by_cases hcb : c = b
    · subst hcb
      exact ⟨[], by simpa using hac, by simpa using hne.symm⟩
    · obtain ⟨path, hchain, hmem⟩ := ih hcb
      refine ⟨c :: path, ?_, ?_⟩
      · simpa using ⟨hac, by simpa using hchain⟩
      · rw [List.mem_cons]
        exact fun hb => hb.elim (fun e => hne e.symm) hmem

end PagePool.WaitsFor
