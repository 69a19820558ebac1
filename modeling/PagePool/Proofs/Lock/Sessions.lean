import PagePool.Lock.Blocking
import PagePool.Proofs.Lock.Validity

namespace PagePool

/-- Any number of callers on one lock table, with their requests that are blocked. -/
abbrev LockSession := Session LockTable LockRequest

/-- One step of one caller: a blocking request makes its first pass or, by its position among the
blocked ones, another pass. -/
inductive LockAction where
  | acquire (step : Nat) (r : LockRequest)
  | resume (i : Nat)
  | tryAcquire (r : LockRequest)
  | release (t : TransactionId) (page : PageId)
  | releaseAll (t : TransactionId)
  deriving DecidableEq, Repr

namespace LockSession

def fresh : LockSession := ⟨.empty, []⟩

def requests (s : LockSession) : List LockRequest := s.pending.map Pending.call

def perform (s : LockSession) : LockAction → LockSession
  | .acquire step r => (s.submit LockTable.pass step r).2
  | .resume i => (s.resume LockTable.pass i).2
  | .tryAcquire r => { s with state := (s.state.tryAcquire r).2 }
  | .release t page => { s with state := s.state.release t page }
  | .releaseAll t => { s with state := s.state.releaseAll t }

/-- The session after any callers' steps, in the order they were taken. -/
def run (as : List LockAction) : LockSession := as.foldl perform fresh

variable {s : LockSession}

theorem pass_waits {l k : LockTable} {r : LockRequest} (h : l.acquire r = (.waits, k)) :
    l.pass r = (.blocked r, k) := by
  simp [LockTable.pass, h]

theorem pass_ends {l k : LockTable} {r : LockRequest} {o : LockAttempt}
    (h : l.acquire r = (o, k)) (ho : o ≠ .waits) : ∃ result, l.pass r = (.ended result, k) := by
  cases o with
  | granted => exact ⟨_, by simp only [LockTable.pass, h]; rfl⟩
  | deadlock => exact ⟨_, by simp only [LockTable.pass, h]; rfl⟩
  | waits => exact absurd rfl ho

/-- What a pass of a blocking request does to the session: the table goes through one attempt, and
the request is among the blocked ones just if it waits. Nobody else's request goes away. -/
structure Passes (s s' : LockSession) (r : LockRequest) : Prop where
  state : s'.state = (s.state.acquire r).2
  joins : (s.state.acquire r).1 = .waits → r ∈ s'.requests
  keeps : ∀ q ∈ s.requests, q.tid ≠ r.tid ∨ (s.state.acquire r).1 = .waits → q ∈ s'.requests

theorem passes_submit (s : LockSession) (step : Nat) (r : LockRequest) :
    Passes s (s.submit LockTable.pass step r).2 r := by
  unfold Session.submit
  rcases ha : s.state.acquire r with ⟨o, k⟩
  by_cases ho : o = .waits
  · subst ho
    rw [pass_waits ha]
    constructor
    · simp [ha]
    · simp [requests]
    · intro q hq _
      simp only [requests, List.map_append, List.mem_append]
      exact .inl hq
  · obtain ⟨result, hp⟩ := pass_ends ha ho
    rw [hp]
    constructor
    · simp [ha]
    · simp [ha, ho]
    · exact fun q hq _ => hq

theorem passes_resume {i : Nat} {p : Pending LockRequest} (hi : s.pending[i]? = some p) :
    Passes s (s.resume LockTable.pass i).2 p.call := by
  unfold Session.resume
  rw [hi]
  simp only
  rcases ha : s.state.acquire p.call with ⟨o, k⟩
  by_cases ho : o = .waits
  · subst ho
    rw [pass_waits ha]
    have hsame : s.pending.set i p = s.pending := by
      apply List.ext_getElem?
      intro j
      rw [List.getElem?_set]
      split
      · subst j
        split <;> simp_all
      · rfl
    constructor
    · simp [ha]
    · intro _
      simp only [requests, hsame]
      exact List.mem_map_of_mem (List.mem_of_getElem? hi)
    · intro q hq _
      simpa only [requests, hsame] using hq
  · obtain ⟨result, hp⟩ := pass_ends ha ho
    rw [hp]
    constructor
    · simp [ha]
    · simp [ha, ho]
    · -- a request of another transaction stands at another position
      intro q hq hne
      have hne : q.tid ≠ p.call.tid := hne.resolve_right (by simpa [ha] using ho)
      obtain ⟨p', hp', rfl⟩ := List.mem_map.1 hq
      obtain ⟨j, hj⟩ := List.getElem?_of_mem hp'
      apply List.mem_map_of_mem
      refine List.mem_eraseIdx_iff_getElem?.2 ⟨j, ?_, hj⟩
      rintro rfl
      rw [hi] at hj
      exact hne (by rw [Option.some.inj hj])

/-- Every step of a caller is a pass of one request, or one of the operations that never block. -/
theorem perform_cases (s : LockSession) (a : LockAction) :
    (∃ r, Passes s (s.perform a) r) ∨
      (s.perform a).requests = s.requests ∧
        ((s.perform a).state = s.state ∨
          (∃ r, (s.perform a).state = (s.state.tryAcquire r).2) ∨
          (∃ t page, (s.perform a).state = s.state.release t page) ∨
          ∃ t, (s.perform a).state = s.state.releaseAll t) := by
  cases a with
  | acquire step r => exact .inl ⟨r, passes_submit s step r⟩
  | resume i =>
    cases hi : s.pending[i]? with
    | some p => exact .inl ⟨p.call, passes_resume hi⟩
    | none =>
      have hsame : s.perform (.resume i) = s := by simp [perform, Session.resume, hi]
      rw [hsame]
      exact .inr ⟨rfl, .inl rfl⟩
  | tryAcquire r => exact .inr ⟨rfl, .inr (.inl ⟨r, rfl⟩)⟩
  | release t page => exact .inr ⟨rfl, .inr (.inr (.inl ⟨t, page, rfl⟩))⟩
  | releaseAll t => exact .inr ⟨rfl, .inr (.inr (.inr ⟨t, rfl⟩))⟩

/-- What every step keeps, every run keeps. -/
theorem run_induction {P : LockSession → Prop} (h₀ : P fresh)
    (hstep : ∀ s a, P s → P (s.perform a)) (as : List LockAction) : P (run as) := by
  suffices h : ∀ (as : List LockAction) (s : LockSession), P s → P (as.foldl perform s) from
    h as fresh h₀
  intro as
  induction as with
  | nil => exact fun s hs => hs
  | cons a as ih => exact fun s hs => ih _ (hstep s a hs)

theorem valid_perform (a : LockAction) (hv : s.state.Valid) : (s.perform a).state.Valid := by
  rcases perform_cases s a with ⟨r, hp⟩ | ⟨-, h | ⟨r, h⟩ | ⟨t, page, h⟩ | ⟨t, h⟩⟩
  · rw [hp.state]
    exact hv.acquire r
  · rwa [h]
  · rw [h]
    exact hv.tryAcquire r
  · rw [h]
    exact hv.release t page
  · rw [h]
    exact hv.releaseAll t

theorem valid_run (as : List LockAction) : (run as).state.Valid :=
  run_induction (P := fun s => s.state.Valid) LockTable.valid_empty (fun _ a => valid_perform a) as

/-- However the callers' steps interleave, the indexes agree, two transactions hold a page only if
both read it, and the ways to ask for a lock give one answer. -/
theorem mutual_exclusion (as : List LockAction) :
    (run as).state.Valid ∧
      (∀ t u page m n, t ≠ u → (run as).state.modeOf t page = some m →
        (run as).state.modeOf u page = some n → m = .shared ∧ n = .shared) ∧
      ∀ t page,
        ((run as).state.holds t page = true ↔ ((run as).state.modeOf t page).isSome = true) ∧
        ((run as).state.holds t page = true ↔ page ∈ (run as).state.pagesLocked t) := by
  have hv := valid_run as
  refine ⟨hv, ?_, ?_⟩
  · intro t u page m n hne ht hu
    exact hv.shared_of_two_holders hne ht hu
  · intro t page
    exact ⟨hv.holds_iff, OrdSet.mem_toList.symm⟩

end LockSession

end PagePool
