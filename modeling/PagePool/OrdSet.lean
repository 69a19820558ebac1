import PagePool.OrdMap

namespace PagePool

/-- A finite set, listed in ascending order. -/
structure OrdSet (κ : Type) [Key κ] where
  index : OrdMap κ Unit

namespace OrdSet

variable {κ : Type} [Key κ]

def empty : OrdSet κ := ⟨.empty⟩

def contains (s : OrdSet κ) (k : κ) : Bool := s.index.contains k

def insert (s : OrdSet κ) (k : κ) : OrdSet κ := ⟨s.index.insert k ()⟩

def erase (s : OrdSet κ) (k : κ) : OrdSet κ := ⟨s.index.erase k⟩

def filter (s : OrdSet κ) (keep : κ → Bool) : OrdSet κ := ⟨s.index.filter fun k _ => keep k⟩

def toList (s : OrdSet κ) : List κ := s.index.keys

def ofList (ks : List κ) : OrdSet κ := ks.foldl insert empty

def size (s : OrdSet κ) : Nat := s.index.size

def isEmpty (s : OrdSet κ) : Bool := s.index.isEmpty

def inter (s t : OrdSet κ) : OrdSet κ := s.filter t.contains

instance : Membership κ (OrdSet κ) := ⟨fun s k => s.contains k = true⟩

instance (k : κ) (s : OrdSet κ) : Decidable (k ∈ s) := inferInstanceAs (Decidable (_ = true))

theorem mem_iff {s : OrdSet κ} {k : κ} : k ∈ s ↔ s.contains k = true := Iff.rfl

theorem mem_toList {s : OrdSet κ} {k : κ} : k ∈ s.toList ↔ k ∈ s := OrdMap.contains_iff.symm

@[simp] theorem not_mem_empty (k : κ) : k ∉ (empty : OrdSet κ) := by
  simp [mem_iff, contains, empty, OrdMap.contains]

theorem mem_insert [DecidableEq κ] {s : OrdSet κ} {k a : κ} : a ∈ s.insert k ↔ a = k ∨ a ∈ s := by
  simp only [mem_iff, contains, insert, OrdMap.contains, OrdMap.get?_insert]
  by_cases h : a = k <;> simp [h]

theorem mem_erase [DecidableEq κ] {s : OrdSet κ} {k a : κ} : a ∈ s.erase k ↔ a ≠ k ∧ a ∈ s := by
  simp only [mem_iff, contains, erase, OrdMap.contains, OrdMap.get?_erase]
  by_cases h : a = k <;> simp [h]

theorem contains_insert [DecidableEq κ] (s : OrdSet κ) (k a : κ) :
    (s.insert k).contains a = if a = k then true else s.contains a := by
  rw [Bool.eq_iff_iff, ← mem_iff, mem_insert, mem_iff]
  split <;> simp_all

theorem contains_erase [DecidableEq κ] (s : OrdSet κ) (k a : κ) :
    (s.erase k).contains a = if a = k then false else s.contains a := by
  rw [Bool.eq_iff_iff, ← mem_iff, mem_erase, mem_iff]
  split <;> simp_all

theorem mem_filter {s : OrdSet κ} {keep : κ → Bool} {a : κ} :
    a ∈ s.filter keep ↔ a ∈ s ∧ keep a = true := by
  simp only [mem_iff, contains, filter, OrdMap.contains, OrdMap.get?_filter]
  cases s.index.get? a <;> simp

theorem mem_inter {s t : OrdSet κ} {a : κ} : a ∈ s.inter t ↔ a ∈ s ∧ a ∈ t := mem_filter

theorem mem_foldl_insert [DecidableEq κ] {ks : List κ} {s : OrdSet κ} {a : κ} :
    a ∈ ks.foldl insert s ↔ a ∈ s ∨ a ∈ ks := by
  induction ks generalizing s with
  | nil => simp
  | cons k ks ih => simp only [List.foldl_cons, ih, mem_insert, List.mem_cons]; grind

theorem mem_ofList [DecidableEq κ] {ks : List κ} {a : κ} : a ∈ ofList ks ↔ a ∈ ks := by
  simp [ofList, mem_foldl_insert]

theorem isEmpty_iff {s : OrdSet κ} : s.isEmpty = true ↔ ∀ a, a ∉ s := by
  simp only [isEmpty, OrdMap.isEmpty, List.isEmpty_iff, ← mem_toList, toList, OrdMap.keys]
  constructor
  · intro h; simp [h]
  · intro h
    cases he : s.index.entries with
    | nil => rfl
    | cons e es => exact absurd (by simp [he]) (h e.1)

/-- Two sets with the same members are the same set. -/
theorem ext_mem {s t : OrdSet κ} (h : ∀ a, a ∈ s ↔ a ∈ t) : s = t := by
  obtain ⟨s⟩ := s
  obtain ⟨t⟩ := t
  congr 1
  refine OrdMap.ext_get? fun k => ?_
  have := h k
  simp only [mem_iff, contains, OrdMap.contains] at this
  cases hs : s.get? k <;> cases ht : t.get? k <;> simp_all

/-- The listing is strictly ascending, so it has no repetition. -/
theorem toList_ascending (s : OrdSet κ) :
    s.toList.Pairwise fun a b => Key.rank a < Key.rank b := by
  simpa [toList, OrdMap.keys, List.pairwise_map] using s.index.ascending

theorem toList_erase (s : OrdSet κ) (k : κ) :
    (s.erase k).toList = s.toList.filter fun a => Key.rank a != Key.rank k :=
  OrdMap.keys_erase _ _

/-- A member behind all others goes to the end of the listing. -/
theorem toList_insert_of_lt {s : OrdSet κ} {k : κ} (h : ∀ a ∈ s, Key.rank a < Key.rank k) :
    (s.insert k).toList = s.toList ++ [k] :=
  OrdMap.keys_insert_of_lt (fun a ha => h a (mem_toList.1 ha)) ()

end OrdSet

end PagePool
