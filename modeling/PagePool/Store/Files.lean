import PagePool.Bytes

namespace PagePool

/-- The bytes of each named file. -/
structure Files where
  contents : List (String × Bytes)

namespace Files

def empty : Files := ⟨[]⟩

def get? (fs : Files) (name : String) : Option Bytes :=
  (fs.contents.find? fun f => f.1 == name).map (·.2)

def put (fs : Files) (name : String) (bytes : Bytes) : Files :=
  ⟨(name, bytes) :: fs.contents.filter fun f => f.1 != name⟩

/-- A file that is not there has no bytes. -/
def bytes (fs : Files) (name : String) : Bytes := (fs.get? name).getD []

@[simp] theorem get?_put_self (fs : Files) (name : String) (bs : Bytes) :
    (fs.put name bs).get? name = some bs := by simp [get?, put]

theorem get?_put_of_ne (fs : Files) {name other : String} (bs : Bytes) (h : other ≠ name) :
    (fs.put name bs).get? other = fs.get? other := by
  have h' : ¬ name = other := fun e => h e.symm
  simp only [get?, put, List.find?_cons, beq_eq_false_iff_ne.2 h', List.find?_filter]
  congr 2
  funext f
  by_cases hf : f.1 = other <;> simp [hf, h]

theorem isSome_get?_put {fs : Files} {name other : String} {bs : Bytes}
    (h : (fs.get? other).isSome = true) : ((fs.put name bs).get? other).isSome = true := by
  by_cases he : other = name
  · rw [he, get?_put_self]
    rfl
  · rwa [get?_put_of_ne fs bs he]

end Files

end PagePool
