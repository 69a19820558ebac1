import Mathlib.Data.List.Perm.Basic
import PagePool.Proofs.Lock.Acyclicity

namespace PagePool

theorem OrdSet.length_toList {κ : Type} [Key κ] (s : OrdSet κ) : s.toList.length = s.size :=
  List.length_map _

namespace WaitsFor

open Relation

/-- Those a transaction waits on, none if it is not blocked. -/
def holders (g : WaitsFor) (t : TransactionId) : OrdSet TransactionId :=
  (g.waitsOn? t).getD .empty

/-- How many edges there are in these edge lists. -/
def edgesIn : List (TransactionId × OrdSet TransactionId) → Nat
  | [] => 0
  | e :: es => e.2.size + edgesIn es

def edgeCount (g : WaitsFor) : Nat := edgesIn g.edges.entries

/-- A breadth-first search: whom it has looked at, and whom it has still to look at. The queue may
name a transaction more than once. -/
structure Search where
  visited : OrdSet TransactionId
  queue : List TransactionId

namespace Search

/-- One turn of a search for `target`: the first of the queue leaves it, and if that one is new,
those it waits on join the queue, in any order. -/
inductive Turn (g : WaitsFor) (target : TransactionId) : Search → Search → Prop where
  | skip {visited x queue} : x ≠ target → x ∈ visited →
      Turn g target ⟨visited, x :: queue⟩ ⟨visited, queue⟩
  | visit {visited x queue next} : x ≠ target → x ∉ visited → next.Perm (g.holders x).toList →
      Turn g target ⟨visited, x :: queue⟩ ⟨visited.insert x, queue ++ next⟩

/-- Turns in a row, with their number. -/
inductive Turns (g : WaitsFor) (target : TransactionId) (first : Search) : Nat → Search → Prop where
  | none : Turns g target first 0 first
  | next {n s s'} : Turns g target first n s → Turn g target s s' → Turns g target first (n + 1) s'

/-- What the search has found out, once it is over. -/
def answer? (target : TransactionId) (s : Search) : Option Bool :=
  match s.queue with
  | [] => some false
  | x :: _ => if x = target then some true else none

/-- The number of edges that leave transactions which have not been looked at. -/
def edgesAhead (g : WaitsFor) (visited : OrdSet TransactionId) : Nat :=
  edgesIn (g.edges.entries.filter fun e => !visited.contains e.1)

/-- How many turns the search has still to take, unless it comes to its target. -/
def work (g : WaitsFor) (s : Search) : Nat := s.queue.length + edgesAhead g s.visited

/-- What a search from `hs` knows between its turns: those in the queue can be reached, whoever can
be reached in one step has been seen, and the target has not been looked at. -/
structure Explores (g : WaitsFor) (target : TransactionId) (hs : OrdSet TransactionId)
    (s : Search) : Prop where
  reached : ∀ x ∈ s.queue, ∃ h ∈ hs, ReflTransGen g.Edge h x
  begun : ∀ h ∈ hs, h ∈ s.visited ∨ h ∈ s.queue
  closed : ∀ x ∈ s.visited, ∀ y, g.Edge x y → y ∈ s.visited ∨ y ∈ s.queue
  target_ahead : target ∉ s.visited

end Search

variable {g : WaitsFor} {t target w h x : TransactionId} {hs : OrdSet TransactionId}
  {s s' first : Search} {visited : OrdSet TransactionId} {queue : List TransactionId} {n : Nat}

theorem mem_holders : h ∈ g.holders w ↔ g.Edge w h := by
  unfold holders Edge
  cases g.waitsOn? w with
  | none => simp
  | some hs => simp

namespace Search

/-! Each turn takes one piece of work away. -/

/-- The edges that leave a transaction are no longer ahead once it has been looked at. -/
theorem edgesAhead_insert (hx : x ∉ visited) :
    edgesAhead g visited = edgesAhead g (visited.insert x) + (g.holders x).size := by
  have hvisited {y : TransactionId} (hy : y ≠ x) :
      (visited.insert x).contains y = visited.contains y := by
    rw [OrdSet.contains_insert, if_neg hy]
  obtain ⟨⟨es, hascending⟩⟩ := g
  simp only [edgesAhead, holders, waitsOn?, OrdMap.get?]
  -- one edge list after the other: only that of the transaction itself is counted differently
  induction es with
  | nil => rfl
  | cons e es ih =>
    obtain ⟨hhead, htail⟩ := List.pairwise_cons.1 hascending
    by_cases he : e.1 = x
    · subst he
      have hrest : (es.filter fun f => !(visited.insert e.1).contains f.1) =
          es.filter fun f => !visited.contains f.1 := by
        refine List.filter_congr fun f hf => ?_
        rw [hvisited]
        intro hfe
        exact Nat.lt_irrefl _ (hfe ▸ hhead f hf)
      have hnew : visited.contains e.1 = false := Bool.not_eq_true _ ▸ hx
      have hself : (visited.insert e.1).contains e.1 = true := OrdSet.mem_insert.2 (.inl rfl)
      simp only [List.filter_cons, hnew, hself, hrest, OrdMap.lookup, Bool.not_false,
        Bool.not_true, Bool.false_eq_true, if_true, if_false, edgesIn, Option.getD_some]
      exact Nat.add_comm _ _
    · have hlookup : OrdMap.lookup x (e :: es) = OrdMap.lookup x es := by
        rw [OrdMap.lookup, if_neg (mt Key.rank_eq_iff.1 he)]
      rw [hlookup]
      simp only [List.filter_cons, hvisited he]
      split
      · simp only [edgesIn, ih htail]
        exact (Nat.add_assoc _ _ _).symm
      · exact ih htail

theorem Turn.work_eq (h : Turn g target s s') : s.work g = s'.work g + 1 := by
  cases h with
  | skip _ _ =>
    simp only [work, List.length_cons]
    omega
  | @visit visited x queue next _ hx hnext =>
    have hlength : next.length = (g.holders x).size := by
      rw [hnext.length_eq, OrdSet.length_toList]
    simp only [work, List.length_cons, List.length_append, edgesAhead_insert (g := g) hx]
    omega

theorem Turns.work_eq (h : Turns g target first n s) : first.work g = s.work g + n := by
  induction h with
  | none => rfl
  | next _ hturn ih =>
    rw [ih, hturn.work_eq]
    omega

theorem work_first (hqueue : queue.Perm hs.toList) :
    work g ⟨.empty, queue⟩ = hs.size + g.edgeCount := by
  have hall : (g.edges.entries.filter fun e => !(OrdSet.empty : OrdSet TransactionId).contains e.1) =
      g.edges.entries := List.filter_eq_self.2 fun _ _ => rfl
  rw [work, edgesAhead, hall, hqueue.length_eq, OrdSet.length_toList, edgeCount]

/-- A search that is not over can take a turn. -/
theorem exists_turn (h : s.answer? target = none) : ∃ s', Turn g target s s' := by
  obtain ⟨visited, queue⟩ := s
  cases queue with
  | nil => contradiction
  | cons x queue =>
    have hx : x ≠ target := by
      rintro rfl
      simp [answer?] at h
    by_cases hvisited : x ∈ visited
    · exact ⟨_, .skip hx hvisited⟩
    · exact ⟨_, .visit hx hvisited (.refl _)⟩

theorem Turn.answer?_eq (h : Turn g target s s') : s.answer? target = none := by
  cases h with
  | skip hx _ => exact if_neg hx
  | visit hx _ _ => exact if_neg hx

/-- Turn after turn, a search comes to its end. -/
theorem Turns.exists_answer (h : Turns g target first n s) :
    ∃ n' s' found, Turns g target first n' s' ∧ s'.answer? target = some found := by
  -- on the work that is left, of which each turn takes some away
  induction hwork : s.work g using Nat.strong_induction_on generalizing n s with
  | _ k ih =>
    cases ha : s.answer? target with
    | some found => exact ⟨n, s, found, h, ha⟩
    | none =>
      obtain ⟨s', hturn⟩ := exists_turn (g := g) ha
      have hless := hturn.work_eq
      exact ih (s'.work g) (by omega) (h.next hturn) rfl

/-! What the search knows stays true. -/

namespace Explores

theorem of_perm (hqueue : queue.Perm hs.toList) : Explores g target hs ⟨.empty, queue⟩ := by
  have hmem (x : TransactionId) : x ∈ queue ↔ x ∈ hs := hqueue.mem_iff.trans OrdSet.mem_toList
  refine ⟨fun x hx => ⟨x, (hmem x).1 hx, .refl⟩, fun h hh => .inr ((hmem h).2 hh), ?_, ?_⟩
  · exact fun x hx => absurd hx (OrdSet.not_mem_empty x)
  · exact OrdSet.not_mem_empty target

theorem turn (h : Explores g target hs s) (hturn : Turn g target s s') :
    Explores g target hs s' := by
  cases hturn with
  | @skip visited x queue hx hvisited =>
    have hseen {y : TransactionId} (hy : y ∈ visited ∨ y ∈ x :: queue) :
        y ∈ visited ∨ y ∈ queue := by
      rcases hy with hy | hy
      · exact .inl hy
      · rcases List.mem_cons.1 hy with rfl | hy
        · exact .inl hvisited
        · exact .inr hy
    refine ⟨fun y hy => h.reached y (List.mem_cons_of_mem _ hy), fun y hy => hseen (h.begun y hy),
      fun y hy z hyz => hseen (h.closed y hy z hyz), h.target_ahead⟩
  | @visit visited x queue next hx hvisited hnext =>
    have hmem (y : TransactionId) : y ∈ next ↔ g.Edge x y :=
      hnext.mem_iff.trans (OrdSet.mem_toList.trans mem_holders)
    have hseen {y : TransactionId} (hy : y ∈ visited ∨ y ∈ x :: queue) :
        y ∈ visited.insert x ∨ y ∈ queue ++ next := by
      rw [OrdSet.mem_insert, List.mem_append]
      rcases hy with hy | hy
      · exact .inl (.inr hy)
      · exact (List.mem_cons.1 hy).imp .inl .inl
    refine ⟨fun y hy => ?_, fun y hy => hseen (h.begun y hy), fun y hy z hyz => ?_, fun ht => ?_⟩
    · rcases List.mem_append.1 hy with hy | hy
      · exact h.reached y (List.mem_cons_of_mem _ hy)
      · obtain ⟨first, hfirst, hpath⟩ := h.reached x List.mem_cons_self
        exact ⟨first, hfirst, hpath.tail ((hmem y).1 hy)⟩
    · rcases OrdSet.mem_insert.1 hy with rfl | hy
      · exact .inr (List.mem_append_right _ ((hmem z).2 hyz))
      · exact hseen (h.closed y hy z hyz)
    · rcases OrdSet.mem_insert.1 ht with ht | ht
      · exact hx ht.symm
      · exact h.target_ahead ht

theorem turns (h : Explores g target hs first) (hturns : Turns g target first n s) :
    Explores g target hs s := by
  induction hturns with
  | none => exact h
  | next _ hturn ih => exact ih.turn hturn

/-- A search that is over says whether the target can be reached. -/
theorem answer_iff {found : Bool} (h : Explores g target hs s)
    (hfound : s.answer? target = some found) :
    found = true ↔ ∃ h ∈ hs, ReflTransGen g.Edge h target := by
  obtain ⟨visited, queue⟩ := s
  cases queue with
  | nil =>
    obtain rfl : false = found := Option.some.inj hfound
    refine iff_of_false Bool.false_ne_true ?_
    rintro ⟨first, hfirst, hpath⟩
    -- nobody is left to look at, so what has been visited is closed
    have hclosed : ∀ x ∈ visited.toList, ∀ y, g.Edge x y → y ∈ visited.toList := by
      intro x hx y hxy
      rw [OrdSet.mem_toList] at hx ⊢
      exact (h.closed x hx y hxy).resolve_right List.not_mem_nil
    have hmem := (h.begun first hfirst).resolve_right List.not_mem_nil
    have htarget := mem_of_reflTransGen hclosed (OrdSet.mem_toList.2 hmem) hpath
    exact h.target_ahead (OrdSet.mem_toList.1 htarget)
  | cons x queue =>
    simp only [answer?] at hfound
    split at hfound
    · rename_i hx
      subst hx
      obtain rfl : true = found := Option.some.inj hfound
      exact iff_of_true rfl (h.reached x List.mem_cons_self)
    · contradiction

end Explores

end Search

/-- Up to its first arrival at `t`, a way stays when the edges that leave `t` are replaced. -/
theorem reflTransGen_setWaits (hs : OrdSet TransactionId) (hpath : ReflTransGen g.Edge w t) :
    ReflTransGen (g.setWaits t hs).Edge w t := by
  induction hpath using ReflTransGen.head_induction_on with
  | refl => exact .refl
  | @head w u he _ ih =>
    by_cases hw : w = t
    · rw [hw]
    · exact .head (edge_setWaits.2 (.inr ⟨hw, he⟩)) ih

/-- The check refuses just those waits that would close a cycle. -/
theorem Acyclic.setWaits_iff (hg : g.Acyclic) :
    (g.setWaits t hs).Acyclic ↔ g.wouldDeadlock t hs = false := by
  constructor
  · intro hacyclic
    by_contra hd
    rw [Bool.not_eq_false] at hd
    obtain ⟨h, hmem, hpath⟩ := wouldDeadlock_iff.1 hd
    have hedge : (g.setWaits t hs).Edge t h := edge_setWaits.2 (.inl ⟨rfl, hmem⟩)
    exact hacyclic t (.head' hedge (reflTransGen_setWaits hs hpath))
  · intro hd
    exact hg.setWaits (by rw [hd]; exact Bool.false_ne_true)

theorem wouldDeadlock_iff_transGen :
    g.wouldDeadlock t hs = true ↔ ∃ h ∈ hs, h = t ∨ TransGen g.Edge h t := by
  rw [wouldDeadlock_iff]
  simp only [reflTransGen_iff_eq_or_transGen, eq_comm (a := t)]

/-- The check of a wait is exact on any graph, cyclic or not. In whatever order the breadth-first search
lists the holders and the edges of each transaction, it takes at most as many turns as there are
holders and edges, stops only with an answer, and answers what the check answers: whether one of the
holders is the waiter, or waits for it along some way. So on an acyclic graph the check lets pass just
the waits that keep it acyclic. -/
theorem wait_check_exact (g : WaitsFor) (t : TransactionId) (hs : OrdSet TransactionId) :
    (g.wouldDeadlock t hs = true ↔ ∃ h ∈ hs, h = t ∨ TransGen g.Edge h t) ∧
    (∀ queue : List TransactionId, queue.Perm hs.toList →
      (∃ n s, Search.Turns g t ⟨.empty, queue⟩ n s ∧
        s.answer? t = some (g.wouldDeadlock t hs)) ∧
      ∀ n s, Search.Turns g t ⟨.empty, queue⟩ n s →
        n ≤ hs.size + g.edgeCount ∧
        (s.answer? t = none ∧ (∃ s', Search.Turn g t s s') ∨
          s.answer? t = some (g.wouldDeadlock t hs) ∧ ∀ s', ¬Search.Turn g t s s')) ∧
    (g.Acyclic → ((g.setWaits t hs).Acyclic ↔ g.wouldDeadlock t hs = false)) := by
  refine ⟨wouldDeadlock_iff_transGen, fun queue hqueue => ?_, Acyclic.setWaits_iff⟩
  have hanswer {n : Nat} {s : Search} {found : Bool}
      (hturns : Search.Turns g t ⟨.empty, queue⟩ n s) (hfound : s.answer? t = some found) :
      found = g.wouldDeadlock t hs := by
    rw [Bool.eq_iff_iff, wouldDeadlock_iff]
    exact ((Search.Explores.of_perm hqueue).turns hturns).answer_iff hfound
  constructor
  · have hbegun : Search.Turns g t ⟨.empty, queue⟩ 0 ⟨.empty, queue⟩ := .none
    obtain ⟨n, s, found, hturns, hfound⟩ := hbegun.exists_answer
    exact ⟨n, s, hturns, hfound.trans (congrArg some (hanswer hturns hfound))⟩
  · intro n s hturns
    have hwork := hturns.work_eq
    rw [Search.work_first hqueue] at hwork
    refine ⟨by omega, ?_⟩
    cases hfound : s.answer? t with
    | none => exact .inl ⟨rfl, Search.exists_turn hfound⟩
    | some found =>
      refine .inr ⟨congrArg some (hanswer hturns hfound), fun s' hturn => ?_⟩
      rw [hturn.answer?_eq] at hfound
      contradiction

/-- Transaction 1 waits on 2, and 2 on 3. -/
def chain : WaitsFor :=
  (empty.setWaits ⟨1⟩ (.ofList [⟨2⟩])).setWaits ⟨2⟩ (.ofList [⟨3⟩])

/-- Transactions 2 and 3 wait on each other. -/
def ring : WaitsFor :=
  (empty.setWaits ⟨2⟩ (.ofList [⟨3⟩])).setWaits ⟨3⟩ (.ofList [⟨2⟩])

/-- The wait of 3 on 1 would close the chain, and a search around the ring ends all the same. -/
theorem search_around_ring_ends :
    ¬(chain.setWaits ⟨3⟩ (.ofList [⟨4⟩, ⟨1⟩])).Acyclic ∧
    ring.Edge ⟨2⟩ ⟨3⟩ ∧ ring.Edge ⟨3⟩ ⟨2⟩ ∧
    ∃ n ≤ 3, ∃ s, Search.Turns ring ⟨4⟩ ⟨.empty, [⟨2⟩]⟩ n s ∧ s.answer? ⟨4⟩ = some false := by
  have hchain : chain.Acyclic :=
    (acyclic_empty.setWaits (by decide)).setWaits (by decide)
  refine ⟨fun hacyclic => ?_, ⟨_, rfl, by decide⟩, ⟨_, rfl, by decide⟩, ?_⟩
  · have hfree := ((wait_check_exact chain ⟨3⟩ (.ofList [⟨4⟩, ⟨1⟩])).2.2 hchain).1 hacyclic
    have hclosed : chain.wouldDeadlock ⟨3⟩ (.ofList [⟨4⟩, ⟨1⟩]) = true := by decide
    cases hfree.symm.trans hclosed
  · obtain ⟨-, hsearch, -⟩ := wait_check_exact ring ⟨4⟩ (.ofList [⟨2⟩])
    obtain ⟨⟨n, s, hturns, hanswer⟩, hbound⟩ := hsearch [⟨2⟩] (.refl _)
    exact ⟨n, (hbound n s hturns).1, s, hturns, hanswer⟩

end WaitsFor

end PagePool
