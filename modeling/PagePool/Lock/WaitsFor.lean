import PagePool.Id
import PagePool.OrdSet

namespace PagePool

/-- The waits-for graph: each blocked transaction with the holders it waits on, never none. -/
structure WaitsFor where
  edges : OrdMap TransactionId (OrdSet TransactionId)

namespace WaitsFor

def empty : WaitsFor := ⟨.empty⟩

def waitsOn? (g : WaitsFor) (t : TransactionId) : Option (OrdSet TransactionId) := g.edges.get? t

def isEmpty (g : WaitsFor) : Bool := g.edges.isEmpty

def clear (g : WaitsFor) (t : TransactionId) : WaitsFor := ⟨g.edges.erase t⟩

/-- Replaces the edges that leave `t`. -/
def setWaits (g : WaitsFor) (t : TransactionId) (holders : OrdSet TransactionId) : WaitsFor :=
  if holders.isEmpty then g.clear t else ⟨g.edges.insert t holders⟩

/-- Forgets `t` as a waiter and as a holder. -/
def remove (g : WaitsFor) (t : TransactionId) : WaitsFor :=
  ⟨((g.edges.erase t).mapValues fun holders => holders.erase t).filter
    fun _ holders => !holders.isEmpty⟩

theorem waitsOn?_clear (g : WaitsFor) (t u : TransactionId) :
    (g.clear t).waitsOn? u = if u = t then none else g.waitsOn? u := OrdMap.get?_erase g.edges t u

theorem waitsOn?_setWaits (g : WaitsFor) (t u : TransactionId) (holders : OrdSet TransactionId) :
    (g.setWaits t holders).waitsOn? u =
      if u = t then (if holders.isEmpty then none else some holders) else g.waitsOn? u := by
  unfold setWaits
  split
  · exact waitsOn?_clear g t u
  · exact OrdMap.get?_insert g.edges t u holders

theorem waitsOn?_remove (g : WaitsFor) (t u : TransactionId) :
    (g.remove t).waitsOn? u =
      if u = t then none
      else ((g.waitsOn? u).map fun holders => holders.erase t).filter
        fun holders => !holders.isEmpty := by
  unfold remove waitsOn?
  rw [OrdMap.get?_filter, OrdMap.get?_mapValues, OrdMap.get?_erase]
  by_cases h : u = t <;> simp [h]

/-- Whether `target` is in `seen` or reached from it; each round follows one unused edge list. -/
def reaches (target : TransactionId) :
    Nat → List (TransactionId × OrdSet TransactionId) → List TransactionId → Bool
  | 0, _, seen => seen.contains target
  | rounds + 1, edges, seen =>
    seen.contains target ||
      match edges.find? fun e => seen.contains e.1 with
      | none => false
      | some e => reaches target rounds (edges.filter fun f => f.1 != e.1) (e.2.toList ++ seen)

/-- Whether a wait of `t` on `holders` would close a cycle. -/
def wouldDeadlock (g : WaitsFor) (t : TransactionId) (holders : OrdSet TransactionId) : Bool :=
  reaches t g.edges.size g.edges.entries holders.toList

end WaitsFor

end PagePool
