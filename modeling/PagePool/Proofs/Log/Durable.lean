import PagePool.Log.Journal
import PagePool.Proofs.Log.RoundTrip

namespace PagePool

namespace LogMedium

/-- Which of the records that it is given the medium keeps. -/
def keeps : LogMedium → LogRecord → Bool
  | updatesOnly _, r => r.kind = .update
  | _, _ => true

/-- A file can record images whose lengths fit the fields for them. -/
def Takes : LogMedium → LogRecord → Prop
  | file _, r => r.Short
  | _, _ => True

/-- The medium has these records, and the first `n` of them have been forced. What is in a file can
be read, and what it has not been forced for waits in the open writer. -/
def Holds : LogMedium → List LogRecord → Nat → Prop
  | memory log, rs, n => log = ⟨rs, n⟩ ∧ n ≤ rs.length
  | updatesOnly log, rs, n => log = ⟨rs, n⟩ ∧ n ≤ rs.length
  | file log, rs, n => ∃ forced rest bytes appended,
      rs = forced ++ rest ∧ forced.length = n ∧ (∀ r ∈ rest, r.Short) ∧
        log = ⟨some bytes, some ⟨LogRecord.encodeAll rest, appended⟩⟩ ∧
        LogRecord.decodeAll 0 bytes = .ok forced

variable {m : LogMedium} {rs : List LogRecord} {r : LogRecord} {n : Nat}

@[simp] theorem keeps_append (m : LogMedium) (r : LogRecord) : (m.append r).keeps = m.keeps := by
  cases m with
  | memory log => rfl
  | updatesOnly log =>
    by_cases hr : r.kind = .update
    · simp only [append, hr, if_true]
      rfl
    · simp only [append, hr, if_false]
  | file log => rfl

@[simp] theorem takes_append (m : LogMedium) (r : LogRecord) : (m.append r).Takes = m.Takes := by
  cases m with
  | memory log => rfl
  | updatesOnly log =>
    by_cases hr : r.kind = .update
    · simp only [append, hr, if_true]
      rfl
    · simp only [append, hr, if_false]
  | file log => rfl

@[simp] theorem keeps_force (m : LogMedium) : m.force.keeps = m.keeps := by cases m <;> rfl

@[simp] theorem takes_force (m : LogMedium) : m.force.Takes = m.Takes := by cases m <;> rfl

theorem keeps_of_update (m : LogMedium) (hr : r.kind = .update) : m.keeps r = true := by
  cases m with
  | memory log => rfl
  | updatesOnly log => exact decide_eq_true hr
  | file log => rfl

theorem holds_empty : (memory .empty).Holds [] 0 := ⟨rfl, Nat.le_refl 0⟩

/-- A log file that has just been opened has the records that can be read from it. -/
theorem holds_openForAppend {log : LogFile} (hclosed : log.writer = none)
    (hread : LogRecord.decodeAll 0 log.contents = .ok rs) :
    (file log.openForAppend).Holds rs rs.length := by
  refine ⟨rs, [], log.contents, 0, (List.append_nil rs).symm, rfl, nofun, ?_, hread⟩
  simp [LogFile.openForAppend, LogFile.close, LogFile.force, hclosed, LogFile.contents,
    LogRecord.encodeAll]

namespace Holds

theorem le_length (h : m.Holds rs n) : n ≤ rs.length := by
  cases m with
  | memory log => exact h.2
  | updatesOnly log => exact h.2
  | file log =>
    obtain ⟨forced, rest, bytes, appended, rfl, rfl, -⟩ := h
    simp

/-- The durable records are the forced ones. -/
theorem durableRecords (h : m.Holds rs n) : m.durableRecords = .ok (rs.take n) := by
  cases m with
  | memory log =>
    obtain ⟨rfl, -⟩ := h
    rfl
  | updatesOnly log =>
    obtain ⟨rfl, -⟩ := h
    rfl
  | file log =>
    obtain ⟨forced, rest, bytes, appended, rfl, rfl, -, rfl, hread⟩ := h
    rw [List.take_left]
    exact hread

theorem append (h : m.Holds rs n) (hr : m.Takes r) :
    (m.append r).Holds (rs ++ [r].filter m.keeps) n := by
  cases m with
  | memory log =>
    obtain ⟨rfl, hn⟩ := h
    exact ⟨rfl, by simp; omega⟩
  | updatesOnly log =>
    obtain ⟨rfl, hn⟩ := h
    by_cases hk : r.kind = .update
    · simp only [LogMedium.append, hk, if_true, keeps, List.filter_cons, decide_true,
        List.filter_nil]
      exact ⟨rfl, by simp; omega⟩
    · simp only [LogMedium.append, hk, if_false, keeps, List.filter_cons, decide_false,
        List.filter_nil]
      exact ⟨by simp, by simpa using hn⟩
  | file log =>
    obtain ⟨forced, rest, bytes, appended, rfl, rfl, hshort, rfl, hread⟩ := h
    refine ⟨forced, rest ++ [r], bytes, appended + r.encode.length, by simp [keeps], rfl, ?_, ?_,
      hread⟩
    · intro r' hr'
      rcases List.mem_append.1 hr' with hr' | hr'
      · exact hshort r' hr'
      · rwa [List.mem_singleton.1 hr']
    · simp [LogFile.append, LogRecord.encodeAll]

theorem force (h : m.Holds rs n) : m.force.Holds rs rs.length := by
  cases m with
  | memory log =>
    obtain ⟨rfl, hn⟩ := h
    exact ⟨rfl, Nat.le_refl _⟩
  | updatesOnly log =>
    obtain ⟨rfl, hn⟩ := h
    exact ⟨rfl, Nat.le_refl _⟩
  | file log =>
    obtain ⟨forced, rest, bytes, appended, rfl, rfl, hshort, rfl, hread⟩ := h
    refine ⟨forced ++ rest, [], bytes ++ LogRecord.encodeAll rest, appended, by simp, rfl, nofun,
      rfl, ?_⟩
    rw [LogRecord.decodeAll_append hread, LogRecord.decodeAll_encodeAll hshort]
    rfl

theorem foldl_append {new : List LogRecord} (h : m.Holds rs n) (hnew : ∀ r ∈ new, m.Takes r) :
    (new.foldl LogMedium.append m).Holds (rs ++ new.filter m.keeps) n := by
  induction new generalizing m rs with
  | nil => simpa using h
  | cons r new ih =>
    obtain ⟨hr, hrest⟩ := List.forall_mem_cons.1 hnew
    have hlater := ih (h.append hr) (by simpa using hrest)
    rw [keeps_append, List.append_assoc, ← List.filter_append] at hlater
    exact hlater

end Holds

@[simp] theorem keeps_foldl_append (m : LogMedium) (new : List LogRecord) :
    (new.foldl append m).keeps = m.keeps := by
  induction new generalizing m with
  | nil => rfl
  | cons r new ih => exact (ih (m.append r)).trans (keeps_append m r)

@[simp] theorem takes_foldl_append (m : LogMedium) (new : List LogRecord) :
    (new.foldl append m).Takes = m.Takes := by
  induction new generalizing m with
  | nil => rfl
  | cons r new ih => exact (ih (m.append r)).trans (takes_append m r)

end LogMedium

namespace Journal

/-- Appends records and forces them. -/
def log (j : Journal) (rs : List LogRecord) : Except Error Unit × Journal :=
  match j.appendAll rs with
  | (.error e, j) => (.error e, j)
  | (.ok (), j) =>
    match j.force with
    | .error e => (.error e, j)
    | .ok j => (.ok (), j)

variable {j : Journal} {rs new : List LogRecord} {n : Nat}

theorem appendAll_cases (j : Journal) (rs : List LogRecord) :
    (∃ e taken r rest, rs = taken ++ r :: rest ∧ j.refuses r = true ∧
      j.appendAll rs = (.error e, { j with medium := taken.foldl LogMedium.append j.medium })) ∨
    j.appendAll rs = (.ok (), { j with medium := rs.foldl LogMedium.append j.medium }) := by
  induction rs generalizing j with
  | nil => exact .inr rfl
  | cons r rs ih =>
    by_cases hr : j.refuses r = true
    · refine .inl ⟨.logForceFailed r.kind.refusal, [], r, rs, rfl, hr, ?_⟩
      simp only [appendAll, append, hr, if_true]
      rfl
    · simp only [appendAll, append, hr]
      rcases ih { j with medium := j.medium.append r } with
        ⟨e, taken, r', rest, rfl, hr', hrest⟩ | hrest
      · exact .inl ⟨e, r :: taken, r', rest, rfl, hr', hrest⟩
      · exact .inr hrest

/-- Logging stops at a record that is refused, or at a force that fails, or makes all that has been
appended durable. -/
theorem log_cases (j : Journal) (rs : List LogRecord) :
    (∃ e taken r rest, rs = taken ++ r :: rest ∧ (j.appendAll rs).1 = .error e ∧
      j.log rs = (.error e, { j with medium := taken.foldl LogMedium.append j.medium })) ∨
    (j.appendAll rs).1 = .ok () ∧
      ((∃ e, j.forceFails = true ∧
        j.log rs = (.error e, { j with medium := rs.foldl LogMedium.append j.medium })) ∨
      j.forceFails = false ∧
        j.log rs = (.ok (), { j with medium := (rs.foldl LogMedium.append j.medium).force })) := by
  unfold log
  rcases appendAll_cases j rs with ⟨e, taken, r, rest, hrs, -, happend⟩ | happend
  · rw [happend]
    exact .inl ⟨e, taken, r, rest, hrs, rfl, rfl⟩
  · rw [happend]
    refine .inr ⟨rfl, ?_⟩
    cases hf : j.forceFails with
    | true =>
      refine .inl ⟨.logForceFailed "injected failure", rfl, ?_⟩
      simp only [force, if_true]
    | false =>
      refine .inr ⟨rfl, ?_⟩
      simp only [force, Bool.false_eq_true, if_false]

/-- What has been logged without a failure comes after all that was there before, and then all of it
is durable. -/
theorem holds_of_log (h : j.medium.Holds rs n) (hnew : ∀ r ∈ new, j.medium.Takes r)
    (hok : (j.log new).1 = .ok ()) :
    (j.log new).2.medium.Holds (rs ++ new.filter j.medium.keeps)
      (rs ++ new.filter j.medium.keeps).length := by
  rcases log_cases j new with ⟨e, taken, r, rest, -, -, hlog⟩ | ⟨-, ⟨e, -, hlog⟩ | ⟨-, hlog⟩⟩
  · rw [hlog] at hok
    contradiction
  · rw [hlog] at hok
    contradiction
  · rw [hlog]
    exact (h.foldl_append hnew).force

theorem durableRecords_of_log (h : j.medium.Holds rs n) (hnew : ∀ r ∈ new, j.medium.Takes r)
    (hok : (j.log new).1 = .ok ()) :
    (j.log new).2.medium.durableRecords = .ok (rs ++ new.filter j.medium.keeps) := by
  have hdurable := (holds_of_log h hnew hok).durableRecords
  rwa [List.take_length] at hdurable

/-- What becomes of a journal that is given records which all meet a condition: it has them after
those it had, and what was forced stays forced. -/
structure Gains (P : LogRecord → Prop) (j j' : Journal) : Prop where
  takes_eq : j'.medium.Takes = j.medium.Takes
  keeps_eq : j'.medium.keeps = j.medium.keeps
  holds : ∀ {rs n}, j.medium.Holds rs n →
    ∃ new n', n ≤ n' ∧ (∀ r ∈ new, P r) ∧ j'.medium.Holds (rs ++ new) n'

namespace Gains

variable {P Q : LogRecord → Prop} {j' j'' : Journal}

theorem of_medium (h : j'.medium = j.medium) : Gains P j j' := by
  refine ⟨by rw [h], by rw [h], fun {rs n} hrs => ⟨[], n, Nat.le_refl n, nofun, ?_⟩⟩
  rwa [h, List.append_nil]

theorem refl (j : Journal) : Gains P j j := of_medium rfl

theorem trans (h : Gains P j j') (h' : Gains P j' j'') : Gains P j j'' := by
  refine ⟨h'.takes_eq.trans h.takes_eq, h'.keeps_eq.trans h.keeps_eq, fun hrs => ?_⟩
  obtain ⟨new, n', hle, hnew, hnow⟩ := h.holds hrs
  obtain ⟨newer, n'', hle', hnewer, hthen⟩ := h'.holds hnow
  refine ⟨new ++ newer, n'', Nat.le_trans hle hle', ?_, by rwa [← List.append_assoc]⟩
  intro r hr
  rcases List.mem_append.1 hr with hr | hr
  · exact hnew r hr
  · exact hnewer r hr

theorem imp (h : Gains P j j') (hPQ : ∀ r, P r → Q r) : Gains Q j j' := by
  refine ⟨h.takes_eq, h.keeps_eq, fun hrs => ?_⟩
  obtain ⟨new, n', hle, hnew, hnow⟩ := h.holds hrs
  exact ⟨new, n', hle, fun r hr => hPQ r (hnew r hr), hnow⟩

theorem of_append {r : LogRecord} (hr : j.medium.Takes r) (hP : P r) (h : j.append r = .ok j') :
    Gains P j j' := by
  unfold append at h
  split at h
  · contradiction
  · obtain rfl := Except.ok.inj h
    refine ⟨LogMedium.takes_append _ r, LogMedium.keeps_append _ r, fun {rs n} hrs => ?_⟩
    refine ⟨_, n, Nat.le_refl n, ?_, hrs.append hr⟩
    intro r' hr'
    rwa [List.mem_singleton.1 (List.mem_filter.1 hr').1]

/-- Of the records that it is to log the journal has the first ones; all of them, if it has refused
none. -/
theorem of_log (htakes : ∀ r ∈ new, j.medium.Takes r)
    (hP : ∀ taken rest, new = taken ++ rest → rest ≠ [] ∨ (j.appendAll new).1 = .ok () →
      ∀ r ∈ taken, P r) : Gains P j (j.log new).2 := by
  have hkept {taken rest : List LogRecord} (hnew : new = taken ++ rest)
      (hrest : rest ≠ [] ∨ (j.appendAll new).1 = .ok ()) {r : LogRecord}
      (hr : r ∈ taken.filter j.medium.keeps) : P r :=
    hP taken rest hnew hrest r (List.mem_filter.1 hr).1
  rcases log_cases j new with
    ⟨e, taken, r, rest, hnew, -, hlog⟩ | ⟨happend, ⟨e, -, hlog⟩ | ⟨-, hlog⟩⟩
  · rw [hlog]
    refine ⟨by simp, by simp, fun {rs n} hrs => ?_⟩
    have htaken : ∀ r ∈ taken, j.medium.Takes r := fun r hr =>
      htakes r (hnew ▸ List.mem_append_left _ hr)
    exact ⟨_, n, Nat.le_refl n, fun _ => hkept hnew (.inl (List.cons_ne_nil _ _)),
      hrs.foldl_append htaken⟩
  · rw [hlog]
    exact ⟨by simp, by simp, fun {rs n} hrs => ⟨_, n, Nat.le_refl n,
      fun _ => hkept (List.append_nil new).symm (.inr happend), hrs.foldl_append htakes⟩⟩
  · rw [hlog]
    refine ⟨by simp, by simp, fun {rs n} hrs => ?_⟩
    have hforced := (hrs.foldl_append htakes).force
    refine ⟨_, _, ?_, fun _ => hkept (List.append_nil new).symm (.inr happend), hforced⟩
    exact Nat.le_trans hrs.le_length (by simp)

end Gains

end Journal

end PagePool
