import PagePool.Proofs.Lock.WaitEdges

namespace PagePool

open Relation

namespace WaitsFor

/-- No transaction waits for itself, directly or through others. -/
def Acyclic (g : WaitsFor) : Prop := ∀ t, ¬TransGen g.Edge t t

variable {g k : WaitsFor} {t w h : TransactionId} {hs : OrdSet TransactionId}

theorem acyclic_empty : empty.Acyclic := by
  intro t ht
  obtain ⟨u, he, -⟩ := TransGen.head'_iff.1 ht
  exact not_edge_empty he

/-- Edges may go. -/
theorem Acyclic.of_edges (hg : g.Acyclic) (hsub : ∀ w h, k.Edge w h → g.Edge w h) : k.Acyclic :=
  fun t ht => hg t (TransGen.mono hsub t t ht)

/-- Up to its first arrival at `t`, a way uses no edge that leaves `t`. -/
theorem reflTransGen_of_setWaits (hpath : ReflTransGen (g.setWaits t hs).Edge w t) :
    ReflTransGen g.Edge w t := by
  induction hpath using ReflTransGen.head_induction_on with
  | refl => exact .refl
  | @head w u he _ ih =>
    rcases edge_setWaits.1 he with ⟨rfl, -⟩ | ⟨-, he⟩
    · exact .refl
    · exact .head he ih

/-- Either a way was there before the edges of `t` were replaced, or it goes through `t`. -/
theorem transGen_setWaits (hpath : TransGen (g.setWaits t hs).Edge w h) :
    TransGen g.Edge w h ∨
      ReflTransGen (g.setWaits t hs).Edge w t ∧ TransGen (g.setWaits t hs).Edge t h := by
  induction hpath with
  | single he =>
    rcases edge_setWaits.1 he with ⟨rfl, -⟩ | ⟨-, hold⟩
    · exact .inr ⟨.refl, .single he⟩
    · exact .inl (.single hold)
  | tail hwu he ih =>
    rcases ih with hold | ⟨hwt, htu⟩
    · rcases edge_setWaits.1 he with ⟨rfl, -⟩ | ⟨-, hedge⟩
      · exact .inr ⟨hwu.to_reflTransGen, .single he⟩
      · exact .inl (hold.tail hedge)
    · exact .inr ⟨hwt, htu.tail he⟩

/-- A wait that the search lets pass closes no cycle. -/
theorem Acyclic.setWaits (hg : g.Acyclic) (hd : g.wouldDeadlock t hs ≠ true) :
    (g.setWaits t hs).Acyclic := by
  have hself : ¬TransGen (g.setWaits t hs).Edge t t := by
    intro ht
    obtain ⟨h, he, hpath⟩ := TransGen.head'_iff.1 ht
    have hmem : h ∈ hs := by
      rcases edge_setWaits.1 he with ⟨-, hmem⟩ | ⟨hne, -⟩
      · exact hmem
      · exact absurd rfl hne
    exact hd (wouldDeadlock_iff.2 ⟨h, hmem, reflTransGen_of_setWaits hpath⟩)
  intro u hu
  rcases transGen_setWaits hu with hold | ⟨hut, htu⟩
  · exact hg u hold
  · exact hself (htu.trans_left hut)

end WaitsFor

namespace LockTable

variable {l : LockTable} {r : LockRequest}

theorem waitsFor_tryAcquire (l : LockTable) (r : LockRequest) :
    (l.tryAcquire r).2.waitsFor = l.waitsFor := by
  unfold tryAcquire
  split
  · exact waitsFor_grant l r
  · rfl

/-- Only a wait adds edges, after the search has let it pass. -/
theorem acyclic_acquire (hl : l.waitsFor.Acyclic) (r : LockRequest) :
    (l.acquire r).2.waitsFor.Acyclic := by
  have hclear : (l.waitsFor.clear r.tid).Acyclic :=
    hl.of_edges fun _ _ he => (WaitsFor.edge_clear.1 he).2
  unfold acquire
  split
  · simpa [stopWaiting] using hclear
  · split
    · exact hclear
    · rename_i hd
      exact hl.setWaits hd

theorem acyclic_release (hl : l.waitsFor.Acyclic) (t : TransactionId) (page : PageId) :
    (l.release t page).waitsFor.Acyclic := by
  unfold release
  split
  · exact hl.of_edges fun _ _ he => (edge_refreshWaiters.1 he).1
  · exact hl

theorem acyclic_releaseAll (hl : l.waitsFor.Acyclic) (t : TransactionId) :
    (l.releaseAll t).waitsFor.Acyclic :=
  hl.of_edges fun _ _ he => (edge_releaseAll he).2.2

end LockTable

namespace LockSession

variable {s : LockSession}

theorem acyclic_perform (a : LockAction) (hs : s.state.waitsFor.Acyclic) :
    (perform s a).state.waitsFor.Acyclic := by
  rcases perform_cases s a with ⟨r, hp⟩ | ⟨-, h | ⟨r, h⟩ | ⟨t, page, h⟩ | ⟨t, h⟩⟩
  · rw [hp.state]
    exact LockTable.acyclic_acquire hs r
  · rwa [h]
  · rwa [h, LockTable.waitsFor_tryAcquire]
  · rw [h]
    exact LockTable.acyclic_release hs t page
  · rw [h]
    exact LockTable.acyclic_releaseAll hs t

theorem acyclic_run (as : List LockAction) : (run as).state.waitsFor.Acyclic :=
  run_induction (P := fun s => s.state.waitsFor.Acyclic) WaitsFor.acyclic_empty
    (fun _ a => acyclic_perform a) as

/-- However the callers' steps interleave, and however many requests of one transaction are blocked
at a time, nobody is recorded as waiting for itself, directly or along any way through the graph. -/
theorem waits_close_no_cycle (as : List LockAction) (t : TransactionId) :
    ¬(run as).state.waitsFor.Edge t t ∧ ¬TransGen (run as).state.waitsFor.Edge t t := by
  have hacyclic := acyclic_run as t
  exact ⟨fun he => hacyclic (.single he), hacyclic⟩

end LockSession

end PagePool
