namespace PagePool

/-- A blocked call, named by the step that made it. -/
structure Pending (κ : Type) where
  step : Nat
  call : κ

/-- How one pass of a blocked call ends. -/
inductive Pass (κ ρ : Type) where
  | blocked (call : κ)
  | ended (result : ρ)

/-- What a round of passes leaves behind. -/
structure Round (σ κ ρ : Type) where
  state : σ
  pending : List (Pending κ)
  done : List (Nat × ρ)

namespace Round

variable {σ κ ρ : Type}

/-- Every blocked call makes one pass, in the order the calls were made. -/
def sweep (pass : σ → κ → Pass κ ρ × σ) : σ → List (Pending κ) → Round σ κ ρ
  | s, [] => ⟨s, [], []⟩
  | s, p :: ps =>
    match pass s p.call with
    | (.blocked call, s) =>
      let r := sweep pass s ps
      { r with pending := { p with call } :: r.pending }
    | (.ended result, s) =>
      let r := sweep pass s ps
      { r with done := (p.step, result) :: r.done }

/-- Rounds until one of them ends no call; each other round shortens the list. -/
def settleRounds (pass : σ → κ → Pass κ ρ × σ) :
    Nat → σ → List (Pending κ) → Round σ κ ρ
  | 0, s, ps => ⟨s, ps, []⟩
  | rounds + 1, s, ps =>
    let r := sweep pass s ps
    if r.done.isEmpty then r
    else
      let r' := settleRounds pass rounds r.state r.pending
      { r' with done := r.done ++ r'.done }

def settle (pass : σ → κ → Pass κ ρ × σ) (s : σ) (ps : List (Pending κ)) : Round σ κ ρ :=
  settleRounds pass (ps.length + 1) s ps

end Round

/-- A shared state with the calls that are blocked on it, in the order they were made. -/
structure Session (σ κ : Type) where
  state : σ
  pending : List (Pending κ)

namespace Session

variable {σ κ ρ : Type}

/-- Makes a call: its first pass ends it, or it joins the blocked calls. -/
def submit (pass : σ → κ → Pass κ ρ × σ) (s : Session σ κ) (step : Nat) (call : κ) :
    Option ρ × Session σ κ :=
  match pass s.state call with
  | (.ended result, state) => (some result, { s with state })
  | (.blocked call, state) => (none, ⟨state, s.pending ++ [⟨step, call⟩]⟩)

/-- Lets the blocked call at position `i` make one pass, and says how it ended if it did. -/
def resume (pass : σ → κ → Pass κ ρ × σ) (s : Session σ κ) (i : Nat) :
    Option (Nat × ρ) × Session σ κ :=
  match s.pending[i]? with
  | none => (none, s)
  | some p =>
    match pass s.state p.call with
    | (.ended result, state) => (some (p.step, result), ⟨state, s.pending.eraseIdx i⟩)
    | (.blocked call, state) => (none, ⟨state, s.pending.set i { p with call }⟩)

/-- Lets the blocked calls go on, and lists those that ended. -/
def settle (pass : σ → κ → Pass κ ρ × σ) (s : Session σ κ) : List (Nat × ρ) × Session σ κ :=
  let r := Round.settle pass s.state s.pending
  (r.done, ⟨r.state, r.pending⟩)

end Session

end PagePool
