import Mathlib.Data.Set.Finite.List
import Mathlib.Order.WellFounded
import PagePool.Proofs.Lock.Acyclicity

namespace PagePool

open Relation

/-- Of finitely many, some one is related to none of them, unless there is a cycle. -/
theorem exists_mem_not_rel {α : Type} {R : α → α → Prop} {xs : List α} (hne : xs ≠ [])
    (hacyclic : ∀ a, ¬TransGen R a a) : ∃ a ∈ xs, ∀ b ∈ xs, ¬R a b := by
  have hfinite : Finite {a // a ∈ xs} := (List.finite_toSet xs).to_subtype
  let After (b a : {a // a ∈ xs}) : Prop := TransGen R a.1 b.1
  have htrans : IsTrans _ After := ⟨fun _ _ _ hb ha => ha.trans hb⟩
  have hirrefl : Std.Irrefl After := ⟨fun a => hacyclic a.1⟩
  obtain ⟨a, -, hlast⟩ := (Finite.wellFounded_of_trans_of_irrefl After).has_min Set.univ
    ⟨⟨xs.head hne, List.head_mem hne⟩, trivial⟩
  exact ⟨a.1, a.2, fun b hb hab => hlast ⟨b, hb⟩ trivial (.single hab)⟩

namespace LockTable

variable {l : LockTable} {r q : LockRequest} {w h : TransactionId}
  {ps : List (Pending LockRequest)}

theorem blocks_wait : (l.wait r).Blocks q h ↔ l.Blocks q h := blocks_congr rfl rfl

theorem edge_wait :
    (l.wait r).waitsFor.Edge w h ↔ w = r.tid ∧ l.Blocks r h ∨ w ≠ r.tid ∧ l.waitsFor.Edge w h := by
  rw [blocks_iff_mem_conflicting]
  exact WaitsFor.edge_setWaits

theorem state_pass (l : LockTable) (r : LockRequest) : (l.pass r).2 = (l.acquire r).2 := by
  unfold pass
  rcases l.acquire r with ⟨o, k⟩
  cases o <;> rfl

/-- A pass ends its request, by a grant or a refusal, or the request waits because it is blocked. -/
theorem pass_cases (l : LockTable) (r : LockRequest) :
    (∃ h, l.Blocks r h) ∧ l.pass r = (.blocked r, l.wait r) ∨
      ∃ k, l.pass r = (.ended (.ok ()), k) ∨
        l.pass r = (.ended (.error (.transactionAborted r.tid)), k) := by
  unfold pass acquire
  by_cases hg : l.isGrantable r = true
  · rw [if_pos hg]
    exact .inr ⟨_, .inl rfl⟩
  · rw [if_neg hg]
    by_cases hd : l.waitsFor.wouldDeadlock r.tid (l.conflicting r) = true
    · rw [if_pos hd]
      exact .inr ⟨_, .inr rfl⟩
    · rw [if_neg hd]
      have hblocked : ¬∀ h, h ∉ l.conflicting r := fun hnone => hg (isGrantable_iff.2 (.inr hnone))
      obtain ⟨h, hmem⟩ := not_forall_not.1 hblocked
      exact .inl ⟨⟨h, blocks_iff_mem_conflicting.2 hmem⟩, rfl⟩

theorem mem_keys_of_holds {page : PageId} (hholds : l.holds h page = true) : h ∈ l.owned.keys := by
  by_contra hnone
  rw [holds, ownedBy, OrdMap.get?_eq_none_iff.2 hnone] at hholds
  exact OrdSet.not_mem_empty page hholds

/-- The table once the requests have all been found blocked, one after the other. -/
def waitAll (l : LockTable) (ps : List (Pending LockRequest)) : LockTable :=
  ps.foldl (fun l p => l.wait p.call) l

theorem blocks_waitAll : (l.waitAll ps).Blocks q h ↔ l.Blocks q h := by
  induction ps generalizing l with
  | nil => rfl
  | cons p ps ih => exact ih.trans blocks_wait

theorem get?_waiting_wait :
    (l.wait r).waiting.get? w = if w = r.tid then some (r.page, r.mode) else l.waiting.get? w :=
  OrdMap.get?_insert l.waiting r.tid w (r.page, r.mode)

theorem get?_waiting_waitAll_of_ne (hother : ∀ p ∈ ps, p.call.tid ≠ w) :
    (l.waitAll ps).waiting.get? w = l.waiting.get? w := by
  induction ps generalizing l with
  | nil => rfl
  | cons p ps ih =>
    obtain ⟨hfirst, hrest⟩ := List.forall_mem_cons.1 hother
    calc (l.waitAll (p :: ps)).waiting.get? w
        = (l.wait p.call).waiting.get? w := ih hrest
      _ = l.waiting.get? w := by rw [get?_waiting_wait, if_neg hfirst.symm]

/-- Each waiter is recorded with the request of its own pass, since no other pass is for it. -/
theorem get?_waiting_waitAll (hone : (ps.map fun p => p.call.tid).Nodup) {p : Pending LockRequest}
    (hp : p ∈ ps) : (l.waitAll ps).waiting.get? p.call.tid = some (p.call.page, p.call.mode) := by
  induction ps generalizing l with
  | nil => nomatch hp
  | cons p' ps ih =>
    rw [List.map_cons, List.nodup_cons] at hone
    rcases List.mem_cons.1 hp with rfl | hp
    · have hother : ∀ p' ∈ ps, p'.call.tid ≠ p.call.tid := fun p' hp' he =>
        hone.1 (he ▸ List.mem_map_of_mem hp')
      calc (l.waitAll (p :: ps)).waiting.get? p.call.tid
          = (l.wait p.call).waiting.get? p.call.tid := get?_waiting_waitAll_of_ne hother
        _ = some (p.call.page, p.call.mode) := by rw [get?_waiting_wait, if_pos rfl]
    · exact ih hone.2 hp

/-- Each waiter's edges are as its own pass has left them. -/
theorem edge_waitAll (hone : (ps.map fun p => p.call.tid).Nodup) :
    (l.waitAll ps).waitsFor.Edge w h ↔
      (∃ p ∈ ps, p.call.tid = w ∧ l.Blocks p.call h) ∨
        (∀ p ∈ ps, p.call.tid ≠ w) ∧ l.waitsFor.Edge w h := by
  induction ps generalizing l with
  | nil => simp [waitAll]
  | cons p ps ih =>
    rw [List.map_cons, List.nodup_cons] at hone
    have hfirst : ∀ p' ∈ ps, p'.call.tid ≠ p.call.tid := fun p' hp' he =>
      hone.1 (he ▸ List.mem_map_of_mem hp')
    have hstep : (l.waitAll (p :: ps)).waitsFor.Edge w h ↔
        ((l.wait p.call).waitAll ps).waitsFor.Edge w h := Iff.rfl
    rw [hstep, ih hone.2, edge_wait]
    simp only [blocks_wait, List.mem_cons, exists_eq_or_imp, forall_eq_or_imp]
    grind

/-- A round in which no request ends is one in which all of them are blocked. -/
theorem sweep_of_none_ends (hnone : (Round.sweep pass l ps).done = []) :
    (Round.sweep pass l ps).state = l.waitAll ps ∧ (Round.sweep pass l ps).pending = ps ∧
      ∀ p ∈ ps, ∃ h, l.Blocks p.call h := by
  induction ps generalizing l with
  | nil => exact ⟨rfl, rfl, nofun⟩
  | cons p ps ih =>
    rcases pass_cases l p.call with ⟨⟨h, hblocks⟩, hpass⟩ | ⟨k, hpass | hpass⟩
    · simp only [Round.sweep, hpass] at hnone ⊢
      obtain ⟨hstate, hpending, hrest⟩ := ih hnone
      refine ⟨hstate, by rw [hpending], ?_⟩
      intro p' hp'
      rcases List.mem_cons.1 hp' with rfl | hp'
      · exact ⟨h, hblocks⟩
      · obtain ⟨h', hblocks'⟩ := hrest p' hp'
        exact ⟨h', blocks_wait.1 hblocks'⟩
    · simp [Round.sweep, hpass] at hnone
    · simp [Round.sweep, hpass] at hnone

/-- What ends in a round ends by a grant or by a refusal. -/
theorem mem_done_sweep {step : Nat} {result : Except Error Unit}
    (hmem : (step, result) ∈ (Round.sweep pass l ps).done) :
    ∃ p ∈ ps, p.step = step ∧
      (result = .ok () ∨ result = .error (.transactionAborted p.call.tid)) := by
  induction ps generalizing l with
  | nil => nomatch hmem
  | cons p ps ih =>
    have hrest {k : LockTable} (hmem : (step, result) ∈ (Round.sweep pass k ps).done) :
        ∃ p' ∈ p :: ps, p'.step = step ∧
          (result = .ok () ∨ result = .error (.transactionAborted p'.call.tid)) := by
      obtain ⟨p', hp', hends⟩ := ih hmem
      exact ⟨p', List.mem_cons_of_mem _ hp', hends⟩
    rcases pass_cases l p.call with ⟨-, hpass⟩ | ⟨k, hpass | hpass⟩
    · simp only [Round.sweep, hpass] at hmem
      exact hrest hmem
    · simp only [Round.sweep, hpass, List.mem_cons, Prod.mk.injEq] at hmem
      rcases hmem with ⟨rfl, rfl⟩ | hmem
      · exact ⟨p, List.mem_cons_self, rfl, .inl rfl⟩
      · exact hrest hmem
    · simp only [Round.sweep, hpass, List.mem_cons, Prod.mk.injEq] at hmem
      rcases hmem with ⟨rfl, rfl⟩ | hmem
      · exact ⟨p, List.mem_cons_self, rfl, .inr rfl⟩
      · exact hrest hmem

theorem acyclic_sweep (hl : l.waitsFor.Acyclic) :
    (Round.sweep pass l ps).state.waitsFor.Acyclic := by
  induction ps generalizing l with
  | nil => exact hl
  | cons p ps ih =>
    have hpass : (l.pass p.call).2.waitsFor.Acyclic := by
      rw [state_pass]
      exact acyclic_acquire hl p.call
    unfold Round.sweep
    rcases hp : l.pass p.call with ⟨o, k⟩
    rw [hp] at hpass
    cases o with
    | blocked r => exact ih hpass
    | ended result => exact ih hpass

end LockTable

namespace LockSession

variable {as : List LockAction} {ps : List (Pending LockRequest)}

/-- The session after a round of passes. -/
def afterRound (round : Round LockTable LockRequest (Except Error Unit)) : LockSession :=
  ⟨round.state, round.pending⟩

theorem nodup_tids (hone : ((requests (run as)).map LockRequest.tid).Nodup)
    (hperm : ps.Perm (run as).pending) : (ps.map fun p => p.call.tid).Nodup := by
  rw [requests, List.map_map] at hone
  exact (hperm.map fun p : Pending LockRequest => p.call.tid).nodup_iff.2 hone

/-- Whatever edges the history has left out, passes of all the blocked requests put them in. -/
theorem edge_waitAll_run (hone : ((requests (run as)).map LockRequest.tid).Nodup)
    (hperm : ps.Perm (run as).pending) {w h : TransactionId} :
    ((run as).state.waitAll ps).waitsFor.Edge w h ↔
      ∃ p ∈ ps, p.call.tid = w ∧ (run as).state.Blocks p.call h := by
  rw [LockTable.edge_waitAll (nodup_tids hone hperm)]
  refine ⟨fun hedge => hedge.elim id ?_, .inl⟩
  rintro ⟨hother, hedge⟩
  -- an edge of a transaction whose calls have all ended would not be genuine
  obtain ⟨r, hr, rfl, -⟩ := blockedOn_of_edge hedge
  obtain ⟨p, hp, rfl⟩ := List.mem_map.1 hr
  exact absurd rfl (hother p (hperm.mem_iff.2 hp))

theorem blockedOn_waitAll {l : LockTable} (hone : (ps.map fun p => p.call.tid).Nodup)
    {w h : TransactionId} :
    BlockedOn ⟨l.waitAll ps, ps⟩ w h ↔ ∃ p ∈ ps, p.call.tid = w ∧ l.Blocks p.call h := by
  unfold BlockedOn requests
  constructor
  · rintro ⟨r, hr, rfl, -, hblocks⟩
    obtain ⟨p, hp, rfl⟩ := List.mem_map.1 hr
    exact ⟨p, hp, rfl, LockTable.blocks_waitAll.1 hblocks⟩
  · rintro ⟨p, hp, rfl, hblocks⟩
    exact ⟨p.call, List.mem_map_of_mem hp, rfl, LockTable.get?_waiting_waitAll hone hp,
      LockTable.blocks_waitAll.2 hblocks⟩

/-- Without a cycle there is a last request, whose blockers are not blocked themselves. -/
theorem exists_last_blocked (hone : ((requests (run as)).map LockRequest.tid).Nodup)
    (hsome : (run as).pending ≠ []) (hperm : ps.Perm (run as).pending)
    (hacyclic : ((run as).state.waitAll ps).waitsFor.Acyclic) :
    ∃ p ∈ ps, ∀ h, (run as).state.Blocks p.call h → ∀ q ∈ ps, q.call.tid ≠ h := by
  have hne : ps.map (fun p => p.call.tid) ≠ [] := by
    rintro hnil
    obtain rfl := List.map_eq_nil_iff.1 hnil
    exact hsome hperm.nil_eq.symm
  obtain ⟨t, ht, hlast⟩ := exists_mem_not_rel hne hacyclic
  obtain ⟨p, hp, rfl⟩ := List.mem_map.1 ht
  refine ⟨p, hp, ?_⟩
  rintro h hblocks q hq rfl
  exact hlast q.call.tid (List.mem_map_of_mem hq)
    ((edge_waitAll_run hone hperm).2 ⟨p, hp, rfl, hblocks⟩)

/-- When every holder of a lock is blocked, some blocked request ends in its next pass. -/
theorem done_sweep_ne_nil (hone : ((requests (run as)).map LockRequest.tid).Nodup)
    (hsome : (run as).pending ≠ []) (hperm : ps.Perm (run as).pending)
    (hheld : ∀ t page, (run as).state.holds t page = true → ∃ r ∈ requests (run as), r.tid = t) :
    (Round.sweep LockTable.pass (run as).state ps).done ≠ [] := by
  intro hnone
  obtain ⟨hstate, -, hblocked⟩ := LockTable.sweep_of_none_ends hnone
  obtain ⟨p, hp, hlast⟩ := exists_last_blocked hone hsome hperm
    (hstate ▸ LockTable.acyclic_sweep (acyclic_run as))
  obtain ⟨h, hblocks⟩ := hblocked p hp
  have hholds : (run as).state.holds h p.call.page = true := by
    obtain ⟨-, held, hmode, -⟩ := hblocks
    exact (valid_run as).holds_iff.2 (by rw [hmode]; rfl)
  obtain ⟨r, hr, rfl⟩ := hheld h p.call.page hholds
  obtain ⟨q, hq, rfl⟩ := List.mem_map.1 hr
  exact hlast q.call.tid hblocks q (hperm.mem_iff.2 hq) rfl

/-- Whatever the history has left in the graph, and in whatever order the blocked requests try
again: if none of them ends, each waits for exactly those that block it, nobody waits for itself,
and some request is blocked only by transactions that are not blocked. So once every holder of a
lock is blocked, a round ends some request, by a grant or by a refusal. -/
theorem round_exposes_deadlock (as : List LockAction) (ps : List (Pending LockRequest))
    (hone : ((requests (run as)).map LockRequest.tid).Nodup) (hsome : (run as).pending ≠ [])
    (hperm : ps.Perm (run as).pending) :
    let round := Round.sweep LockTable.pass (run as).state ps
    let after := afterRound round
    (round.done = [] →
      after.pending = ps ∧
      (∀ r ∈ requests after, ∀ h,
        after.state.waitsFor.Edge r.tid h ↔ after.state.Blocks r h) ∧
      (∀ w h, after.state.waitsFor.Edge w h ↔ BlockedOn after w h) ∧
      (∀ t, ¬TransGen (BlockedOn after) t t) ∧
      ∃ r ∈ requests after, (∃ h, after.state.Blocks r h) ∧
        ∀ h, after.state.Blocks r h → ∀ q ∈ requests after, q.tid ≠ h) ∧
    ((∀ t page, (run as).state.holds t page = true → ∃ r ∈ requests (run as), r.tid = t) →
      ∃ p ∈ ps, (p.step, .ok ()) ∈ round.done ∨
        (p.step, .error (.transactionAborted p.call.tid)) ∈ round.done) := by
  intro round after
  have hone' := nodup_tids hone hperm
  constructor
  · intro hnone
    obtain ⟨hstate, hpending, hblocked⟩ := LockTable.sweep_of_none_ends hnone
    have hafter : after = ⟨(run as).state.waitAll ps, ps⟩ := by
      simp only [after, afterRound, round, hstate, hpending]
    have hacyclic : ((run as).state.waitAll ps).waitsFor.Acyclic :=
      hstate ▸ LockTable.acyclic_sweep (acyclic_run as)
    have hedge (w h : TransactionId) :
        after.state.waitsFor.Edge w h ↔ BlockedOn after w h := by
      rw [hafter, edge_waitAll_run hone hperm, blockedOn_waitAll hone']
    refine ⟨by rw [hafter], ?_, hedge, ?_, ?_⟩
    · intro r hr h
      rw [hafter] at hr ⊢
      obtain ⟨p, hp, rfl⟩ := List.mem_map.1 hr
      rw [edge_waitAll_run hone hperm, LockTable.blocks_waitAll]
      constructor
      · rintro ⟨q, hq, htid, hblocks⟩
        rwa [← List.inj_on_of_nodup_map hone' hq hp htid]
      · exact fun hblocks => ⟨p, hp, rfl, hblocks⟩
    · intro t ht
      have hpath := TransGen.mono (fun w h => (hedge w h).2) t t ht
      rw [hafter] at hpath
      exact hacyclic t hpath
    · obtain ⟨p, hp, hlast⟩ := exists_last_blocked hone hsome hperm hacyclic
      simp only [hafter, requests, LockTable.blocks_waitAll, List.forall_mem_map]
      exact ⟨p.call, List.mem_map_of_mem hp, hblocked p hp, hlast⟩
  · intro hheld
    have hends : round.done ≠ [] := done_sweep_ne_nil hone hsome hperm hheld
    obtain ⟨⟨step, result⟩, hmem⟩ := List.exists_mem_of_ne_nil _ hends
    obtain ⟨p, hp, rfl, rfl | rfl⟩ := LockTable.mem_done_sweep hmem
    · exact ⟨p, hp, .inl hmem⟩
    · exact ⟨p, hp, .inr hmem⟩

/-- A second writer of a page waits for the first one. -/
def secondWriter : List LockAction :=
  [.acquire 0 ⟨⟨1⟩, ⟨⟨1⟩, 0⟩, .exclusive⟩, .acquire 1 ⟨⟨2⟩, ⟨⟨1⟩, 0⟩, .exclusive⟩]

/-- Two transactions block each other, and the graph does not show it: the first one began to wait
for a reader that is gone, and the second became a reader meanwhile. -/
def hiddenCycle : List LockAction :=
  [.acquire 0 ⟨⟨3⟩, ⟨⟨1⟩, 0⟩, .shared⟩, .acquire 1 ⟨⟨1⟩, ⟨⟨1⟩, 1⟩, .exclusive⟩,
    .acquire 2 ⟨⟨1⟩, ⟨⟨1⟩, 0⟩, .exclusive⟩, .acquire 3 ⟨⟨2⟩, ⟨⟨1⟩, 0⟩, .shared⟩,
    .acquire 4 ⟨⟨2⟩, ⟨⟨1⟩, 1⟩, .exclusive⟩, .releaseAll ⟨3⟩]

theorem hidden_cycle_exposed :
    (Round.sweep LockTable.pass (run secondWriter).state (run secondWriter).pending).done = [] ∧
    (∀ t, ¬TransGen (BlockedOn (afterRound (Round.sweep LockTable.pass (run secondWriter).state
      (run secondWriter).pending))) t t) ∧
    ∃ p ∈ (run hiddenCycle).pending.reverse, ∃ result,
      (p.step, result) ∈ (Round.sweep LockTable.pass (run hiddenCycle).state
        (run hiddenCycle).pending.reverse).done := by
  have hnone : (Round.sweep LockTable.pass (run secondWriter).state
      (run secondWriter).pending).done = [] := by rfl
  obtain ⟨-, -, -, hacyclic, -⟩ := (round_exposes_deadlock secondWriter
    (run secondWriter).pending (by decide) (by decide) (.refl _)).1 hnone
  refine ⟨hnone, hacyclic, ?_⟩
  have howners : ∀ t ∈ (run hiddenCycle).state.owned.keys,
      ∃ r ∈ requests (run hiddenCycle), r.tid = t := by decide
  obtain ⟨p, hp, hends⟩ := (round_exposes_deadlock hiddenCycle
    (run hiddenCycle).pending.reverse (by decide) (by decide) (List.reverse_perm _)).2
      fun t page hholds => howners t (LockTable.mem_keys_of_holds hholds)
  rcases hends with hends | hends
  · exact ⟨p, hp, _, hends⟩
  · exact ⟨p, hp, _, hends⟩

end LockSession

end PagePool
