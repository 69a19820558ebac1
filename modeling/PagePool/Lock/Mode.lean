namespace PagePool

inductive LockMode where
  | shared
  | exclusive
  deriving DecidableEq, Repr

namespace LockMode

/-- Whether two transactions may hold these modes on one page at once. -/
def isCompatible : LockMode → LockMode → Bool
  | shared, shared => true
  | _, _ => false

theorem isCompatible_iff {a b : LockMode} : a.isCompatible b = true ↔ a = shared ∧ b = shared := by
  cases a <;> cases b <;> decide

end LockMode

/-- What a caller asks to do with a page. -/
inductive Access where
  | readOnly
  | readWrite
  deriving DecidableEq, Repr

def Access.lockMode : Access → LockMode
  | readOnly => .shared
  | readWrite => .exclusive

end PagePool
