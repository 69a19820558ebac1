import PagePool.Proofs.Pool.World

namespace PagePool

namespace Pool

/-- A pass of several lock requests is its first one, or goes on from where that one leads. -/
theorem runCall_succ (n : Nat) (p : Pool) (c : Call) :
    p.runCall (n + 1) c = p.runCall 1 c ∨
      ∃ c' p', p.runCall 1 c = (.blocked c', p') ∧ p.runCall (n + 1) c = p'.runCall n c' := by
  rcases ha : p.locks.acquire c.request with ⟨attempt, locks⟩
  cases attempt with
  | waits => exact .inl (by simp only [runCall, ha])
  | deadlock => exact .inl (by simp only [runCall, ha])
  | granted =>
    rcases hr : ({ p with locks } : Pool).resume c with ⟨progress, p'⟩
    cases progress with
    | ended result => exact .inl (by simp only [runCall, ha, hr])
    | needs c' => exact .inr ⟨c', p', by simp only [runCall, ha, hr], by simp only [runCall, ha, hr]⟩

theorem resume_runCall_zero (s : Session Pool Call) (i : Nat) : s.resume (runCall 0) i = (none, s) := by
  unfold Session.resume
  cases hi : s.pending[i]? with
  | none => rfl
  | some call =>
    simp only [runCall]
    have hsame : s.pending.set i { call with call := call.call } = s.pending := by
      apply List.ext_getElem?
      intro j
      rw [List.getElem?_set]
      split
      · rename_i hij
        subst hij
        rw [if_pos (List.getElem?_eq_some_iff.1 hi).1, hi]
      · rfl
    rw [hsame]

theorem resume_runCall_succ (n : Nat) (s : Session Pool Call) (i : Nat) :
    s.resume (runCall (n + 1)) i = s.resume (runCall 1) i ∨
      (s.resume (runCall 1) i).1 = none ∧
        s.resume (runCall (n + 1)) i = (s.resume (runCall 1) i).2.resume (runCall n) i := by
  cases hi : s.pending[i]? with
  | none => exact .inl (by simp only [Session.resume, hi])
  | some call =>
    rcases runCall_succ n s.state call.call with hsame | ⟨c', p', hfirst, hrest⟩
    · exact .inl (by simp only [Session.resume, hi, hsame])
    · refine .inr ⟨by simp only [Session.resume, hi, hfirst], ?_⟩
      have hset : (s.pending.set i { call with call := c' })[i]? = some { call with call := c' } := by
        rw [List.getElem?_set, if_pos rfl, if_pos (List.getElem?_eq_some_iff.1 hi).1]
      simp only [Session.resume, hi, hfirst, hrest, hset]
      rcases runCall n p' c' with ⟨pass, p''⟩
      cases pass with
      | blocked c'' => simp only [List.set_set]
      | ended result => simp only [List.eraseIdx_set_eq]

/-- What a call answers once it has gone on is what it was to answer from the first. -/
theorem Answers.of_next {p p' : Pool} {l : Ledger} {pages : List PageId} {c c' : Call}
    {result : Except Error Answer} (h : Answers p' l pages c' result)
    (hlayout : p'.catalog.layout? = p.catalog.layout?) (ht : c'.request.tid = c.request.tid)
    (hnext : c' = c ∨ GoesOn c.task c'.task) : Answers p l pages c result := by
  cases result with
  | error e => trivial
  | ok answer =>
    rcases hnext with rfl | hnext
    · simpa only [Answers, hlayout] using h
    · obtain ⟨r, task⟩ := c
      obtain ⟨r', task'⟩ := c'
      have ht' : r'.tid = r.tid := ht
      cases task <;> cases task' <;> first | exact hnext.elim | skip
      · exact h
      · simpa only [Answers, hlayout, ht'] using h

end Pool

namespace World

variable {w : World} {i n : Nat}

/-- A turn is one lock request of the session's call. -/
theorem turn_eq_resume (w : World) (i : Nat) :
    (w.turn i).1 = (w.session.resume (Pool.runCall 1) i).1 ∧
      (w.turn i).2.session = (w.session.resume (Pool.runCall 1) i).2 := by
  unfold turn
  cases hi : w.session.pending[i]? with
  | none => simp [Session.resume, hi]
  | some call =>
    rcases hr : w.session.resume (Pool.runCall 1) i with ⟨ended?, session⟩
    cases ended? with
    | none => exact ⟨rfl, rfl⟩
    | some e => exact ⟨rfl, rfl⟩

/-- A pass of any number of lock requests is as many turns, or fewer. -/
theorem Reaches.pass {rule : World → Action → Prop} {start : World} (hr : Reaches rule start w)
    (hrule : ∀ w i, rule w (.turn i)) (n i : Nat) :
    ∃ w', Reaches rule start w' ∧ w'.session = (w.session.resume (Pool.runCall n) i).2 := by
  induction n generalizing w with
  | zero => exact ⟨w, hr, by rw [Pool.resume_runCall_zero]⟩
  | succ n ih =>
    have hturn := (turn_eq_resume w i).2
    have hnext : Reaches rule start (w.turn i).2 := hr.step (hrule w i)
    rcases Pool.resume_runCall_succ n w.session i with hsame | ⟨-, hrest⟩
    · exact ⟨_, hnext, by rw [hsame, hturn]⟩
    · obtain ⟨w', hw', hsession⟩ := ih hnext
      exact ⟨w', hw', by rw [hsession, hturn, hrest]⟩

theorem getElem?_last {α : Type} (xs : List α) (x : α) : (xs ++ [x])[xs.length]? = some x := by
  rw [List.getElem?_append_right (Nat.le_refl _), Nat.sub_self]
  rfl

/-- A call that makes its first pass at once is a call that starts and then makes a pass. -/
theorem submit_eq_resume {σ κ ρ : Type} (pass : σ → κ → Pass κ ρ × σ) (s : Session σ κ)
    (step : Nat) (call : κ) :
    (s.submit pass step call).2 =
      (Session.resume pass ⟨s.state, s.pending ++ [⟨step, call⟩]⟩ s.pending.length).2 := by
  have hlast := getElem?_last s.pending ⟨step, call⟩
  simp only [Session.submit, Session.resume, hlast]
  rcases pass s.state call with ⟨o, state⟩
  cases o with
  | ended result => simp [List.eraseIdx_append_of_length_le]
  | blocked call' => simp

/-- Starting a call with its first pass, and letting a waiting call make a whole pass, lead to
sessions that single steps reach. -/
theorem Reaches.start_call {start : World} (hr : Reaches Orderly start w) {c : Command}
    (hidle : w.Idle c.tid) (step : Nat) :
    ∃ w', Reaches Orderly start w' ∧
      w'.session = (Pool.start w.session step (c.start w.pool)).2 := by
  have hissued : Reaches Orderly start (w.issue step c).2 := hr.step (a := .call step c) hidle
  rcases hstart : c.start w.pool with ⟨progress, p'⟩
  cases progress with
  | ended result =>
    refine ⟨_, hissued, ?_⟩
    simp only [issue, hstart, Pool.start]
    rfl
  | needs call =>
    obtain ⟨w', hw', hsession⟩ :=
      hissued.pass (fun _ _ => trivial) (p'.lockBound call) w.session.pending.length
    refine ⟨w', hw', ?_⟩
    have hlast : (w.session.pending ++ [⟨step, call⟩])[w.session.pending.length]? =
        some ⟨step, call⟩ := getElem?_last _ _
    rw [hsession, Pool.start, submit_eq_resume]
    simp only [issue, hstart, Session.resume, hlast]
    rfl

/-- A waiting call may as well make a whole pass, up to the lock that it has to wait for. -/
theorem Reaches.whole_pass {start : World} (hr : Reaches Orderly start w) (i : Nat) :
    ∃ w', Reaches Orderly start w' ∧ w'.session = (w.session.resume Pool.pass i).2 := by
  cases hi : w.session.pending[i]? with
  | none => exact ⟨w, hr, by simp only [Session.resume, hi]⟩
  | some call =>
    obtain ⟨w', hw', hsession⟩ := hr.pass (fun _ _ => trivial) (w.pool.lockBound call.call) i
    refine ⟨w', hw', hsession.trans ?_⟩
    simp only [Session.resume, hi]
    rfl

/-- A flush of several pages is flushes of single pages in a row, up to the first that fails. -/
theorem exists_flushes (w : World) (qs : List PageId) :
    ∃ flushed, flushed <+: qs ∧
      w.withPool (w.pool.flushEach qs).2 = w.performAll (flushed.map Action.flush) := by
  induction qs generalizing w with
  | nil => exact ⟨[], List.nil_prefix, rfl⟩
  | cons q qs ih =>
    have hfirst : w.perform (.flush q) = w.withPool (w.pool.flush q).2 := rfl
    unfold Pool.flushEach
    rcases hf : w.pool.flush q with ⟨result, p'⟩
    rw [hf] at hfirst
    cases result with
    | error e =>
      refine ⟨[q], (List.prefix_cons_inj q).2 List.nil_prefix, ?_⟩
      exact hfirst.symm
    | ok u =>
      obtain ⟨flushed, hprefix, hrest⟩ := ih (w.withPool p')
      refine ⟨q :: flushed, (List.prefix_cons_inj q).2 hprefix, ?_⟩
      rw [List.map_cons, performAll, List.foldl_cons, hfirst]
      exact hrest

/-- However many locks a call goes through in one pass, if it ends, it answers from the ledger. -/
theorem Consistent.answers (h : w.Consistent) {call : Pending Call}
    (hi : w.session.pending[i]? = some call) {step : Nat} {result : Except Error Answer}
    (hp : (w.session.resume (Pool.runCall n) i).1 = some (step, result)) :
    Pool.Answers w.pool w.ledger (w.scanned call.call.request.tid) call.call result := by
  induction n generalizing w call with
  | zero =>
    rw [Pool.resume_runCall_zero] at hp
    contradiction
  | succ n ih =>
    have hturn := turn_eq_resume w i
    have hconsistent := h.turn i
    rcases turn_cases h hi with ⟨c', p', hw, ht, hnext, -, ha⟩ | ⟨found, p', hw, hanswers, -⟩
    · rcases Pool.resume_runCall_succ n w.session i with hsame | ⟨-, hrest⟩
      · rw [hsame, ← hturn.1, hw] at hp
        contradiction
      · -- the call goes on under the same transaction, and what it answers is still what was asked
        rw [hrest, ← hturn.2] at hp
        rw [hw] at hp hconsistent
        have hi' : (w.session.pending.set i { call with call := c' })[i]? =
            some { call with call := c' } := by
          rw [List.getElem?_set, if_pos rfl, if_pos (List.getElem?_eq_some_iff.1 hi).1]
        have hlater := ih hconsistent hi' hp
        simp only [ht] at hlater
        exact hlater.of_next ha.layout_eq ht hnext
    · rcases Pool.resume_runCall_succ n w.session i with hsame | ⟨hnone, -⟩
      · rw [hsame, ← hturn.1, hw] at hp
        obtain ⟨-, rfl⟩ := Prod.mk.inj (Option.some.inj hp)
        exact hanswers
      · rw [← hturn.1, hw] at hnone
        contradiction

end World

end PagePool
