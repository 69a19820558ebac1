import PagePool.Proofs.Log.Durable

namespace PagePool

namespace LogRecord

def ends (t : TransactionId) (r : LogRecord) : Bool := r == .commit t || r == .abort t

/-- The first of the records that ends the transaction. -/
def firstEnd (t : TransactionId) (rs : List LogRecord) : Option LogRecord := rs.find? (ends t)

/-- What the winners among the changes of a page have made of it: those whose transaction next ends
with a commit. -/
def winners (q : PageId) : List LogRecord → List Bytes
  | [] => []
  | update t p _ after :: rs =>
    if p = q ∧ firstEnd t rs = some (commit t) then after :: winners q rs else winners q rs
  | _ :: rs => winners q rs

/-- The transaction has logged a change of the page, and has not ended since. -/
def IsOpen (t : TransactionId) (q : PageId) : List LogRecord → Prop
  | [] => False
  | update u p _ _ :: rs => u = t ∧ p = q ∧ firstEnd t rs = none ∨ IsOpen t q rs
  | _ :: rs => IsOpen t q rs

variable {rs new : List LogRecord} {r : LogRecord} {t u : TransactionId} {q : PageId}

theorem firstEnd_append :
    firstEnd t (rs ++ new) = (firstEnd t rs).or (firstEnd t new) :=
  List.find?_append

theorem mem_of_firstEnd (h : firstEnd t rs = some r) : r ∈ rs := List.mem_of_find?_eq_some h

theorem firstEnd_update {p : PageId} {before after : Bytes} :
    firstEnd t (update u p before after :: rs) = firstEnd t rs :=
  List.find?_cons_of_neg (by simp [ends])

theorem isOpen_append (h : IsOpen t q (rs ++ new)) :
    IsOpen t q rs ∧ firstEnd t new = none ∨ IsOpen t q new := by
  induction rs with
  | nil => exact .inr h
  | cons r rs ih =>
    cases r with
    | update u p before after =>
      rcases h with ⟨hu, hp, hend⟩ | h
      · obtain ⟨hold, hnew⟩ := Option.or_eq_none_iff.1 (firstEnd_append.symm.trans hend)
        exact .inl ⟨.inl ⟨hu, hp, hold⟩, hnew⟩
      · exact (ih h).imp_left (And.imp_left .inr)
    | commit u => exact ih h
    | abort u => exact ih h

/-- Records that commit none of the open changes add their own winners. -/
theorem winners_append (h : ∀ t, IsOpen t q rs → firstEnd t new ≠ some (commit t)) :
    winners q (rs ++ new) = winners q rs ++ winners q new := by
  induction rs with
  | nil => rfl
  | cons r rs ih =>
    cases r with
    | update t p before after =>
      have hrest := ih fun u hu => h u (.inr hu)
      have hsame : p = q ∧ firstEnd t (rs ++ new) = some (commit t) ↔
          p = q ∧ firstEnd t rs = some (commit t) := by
        refine and_congr_right fun hp => ?_
        rw [firstEnd_append]
        cases hend : firstEnd t rs with
        | some e => rw [Option.some_or]
        | none =>
          -- an open change of the page, which the new records do not commit
          rw [Option.none_or]
          exact iff_of_false (h t (.inl ⟨rfl, hp, hend⟩)) nofun
      simp only [List.cons_append, winners, hrest]
      by_cases hwins : p = q ∧ firstEnd t rs = some (commit t)
      · rw [if_pos (hsame.2 hwins), if_pos hwins]
        rfl
      · rw [if_neg (mt hsame.1 hwins), if_neg hwins]
    | commit u => exact ih h
    | abort u => exact ih h

/-- Whatever becomes of the earlier changes, the winners of the later ones come last. -/
theorem winners_suffix (q : PageId) (rs new : List LogRecord) :
    winners q new <:+ winners q (rs ++ new) := by
  induction rs with
  | nil => exact List.suffix_rfl
  | cons r rs ih =>
    cases r with
    | update t p before after =>
      simp only [List.cons_append, winners]
      split
      · exact ih.trans (List.suffix_cons _ _)
      · exact ih
    | commit u => exact ih
    | abort u => exact ih

theorem winners_of_aborts (h : ∀ r ∈ rs, r.kind = .abort) : winners q rs = [] := by
  induction rs with
  | nil => rfl
  | cons r rs ih =>
    obtain ⟨hr, hrest⟩ := List.forall_mem_cons.1 h
    cases r with
    | abort u => exact ih hrest
    | _ => contradiction

/-- Aborts at the end of the log change no winner. -/
theorem winners_append_aborts (h : ∀ r ∈ new, r.kind = .abort) :
    winners q (rs ++ new) = winners q rs := by
  rw [winners_append, winners_of_aborts h, List.append_nil]
  intro t _ hend
  have hkind := h _ (mem_of_firstEnd hend)
  contradiction

end LogRecord

namespace Journal

variable {j : Journal} {rs new : List LogRecord} {n : Nat}

theorem foldl_append_memory (log : MemoryLog) (new : List LogRecord) :
    new.foldl LogMedium.append (.memory log) =
      .memory { log with records := log.records ++ new } := by
  induction new generalizing log with
  | nil => simp
  | cons r new ih => simp [LogMedium.append, MemoryLog.append, ih]

/-- A log in memory that has worked has all its records, and all of them durable. -/
theorem medium_log (hm : j.medium = .memory ⟨rs, n⟩) (hok : (j.log new).1 = .ok ()) :
    (j.log new).2.medium = .memory ⟨rs ++ new, (rs ++ new).length⟩ := by
  rcases log_cases j new with ⟨e, taken, r, rest, -, -, hlog⟩ | ⟨-, ⟨e, -, hlog⟩ | ⟨-, hlog⟩⟩
  · rw [hlog] at hok
    contradiction
  · rw [hlog] at hok
    contradiction
  · simp only [hlog, hm, foldl_append_memory]
    rfl

end Journal

end PagePool
