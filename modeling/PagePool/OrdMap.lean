namespace PagePool

/-- Keys carry an injective rank, and the order of keys is the order of their ranks. -/
class Key (κ : Type) where
  rank : κ → Nat
  rank_injective : ∀ {a b : κ}, rank a = rank b → a = b

namespace Key

variable {κ : Type} [Key κ]

theorem rank_eq_iff {a b : κ} : rank a = rank b ↔ a = b :=
  ⟨rank_injective, fun h => h ▸ rfl⟩

end Key

/-- A finite map: entries in strictly ascending key order, so equal maps have equal entries. -/
structure OrdMap (κ ν : Type) [Key κ] where
  entries : List (κ × ν)
  ascending : entries.Pairwise fun a b => Key.rank a.1 < Key.rank b.1

namespace OrdMap

open Key

variable {κ ν μ : Type} [Key κ]

def lookup (k : κ) : List (κ × ν) → Option ν
  | [] => none
  | e :: es => if rank e.1 = rank k then some e.2 else lookup k es

/-- One pass that replaces the entry of an equal key. -/
def insertEntry (k : κ) (v : ν) : List (κ × ν) → List (κ × ν)
  | [] => [(k, v)]
  | e :: es =>
    if rank k < rank e.1 then (k, v) :: e :: es
    else if rank k = rank e.1 then (k, v) :: es
    else e :: insertEntry k v es

theorem mem_insertEntry {k : κ} {v : ν} {es : List (κ × ν)} {e : κ × ν}
    (h : e ∈ insertEntry k v es) : e = (k, v) ∨ e ∈ es := by
  induction es with
  | nil => simpa [insertEntry] using h
  | cons f fs ih =>
    unfold insertEntry at h
    split at h
    · simpa using h
    · split at h
      · rcases List.mem_cons.1 h with h | h
        · exact .inl h
        · exact .inr (List.mem_cons_of_mem _ h)
      · rcases List.mem_cons.1 h with h | h
        · exact .inr (h ▸ List.mem_cons_self)
        · exact (ih h).imp id (List.mem_cons_of_mem _)

theorem ascending_insertEntry (k : κ) (v : ν) {es : List (κ × ν)}
    (h : es.Pairwise fun a b => rank a.1 < rank b.1) :
    (insertEntry k v es).Pairwise fun a b => rank a.1 < rank b.1 := by
  induction es with
  | nil => simp [insertEntry]
  | cons e es ih =>
    obtain ⟨hhead, htail⟩ := List.pairwise_cons.1 h
    unfold insertEntry
    split
    · rename_i hlt
      refine List.pairwise_cons.2 ⟨fun f hf => ?_, h⟩
      rcases List.mem_cons.1 hf with rfl | hf
      · exact hlt
      · exact Nat.lt_trans hlt (hhead f hf)
    · split
      · rename_i heq
        exact List.pairwise_cons.2 ⟨fun f hf => by have := hhead f hf; simp only; omega, htail⟩
      · refine List.pairwise_cons.2 ⟨fun f hf => ?_, ih htail⟩
        rcases mem_insertEntry hf with rfl | hf
        · simp only; omega
        · exact hhead f hf

def empty : OrdMap κ ν := ⟨[], .nil⟩

def get? (m : OrdMap κ ν) (k : κ) : Option ν := lookup k m.entries

def contains (m : OrdMap κ ν) (k : κ) : Bool := (m.get? k).isSome

def insert (m : OrdMap κ ν) (k : κ) (v : ν) : OrdMap κ ν :=
  ⟨insertEntry k v m.entries, ascending_insertEntry k v m.ascending⟩

/-- Keeps the entries that pass the test. -/
def filter (m : OrdMap κ ν) (keep : κ → ν → Bool) : OrdMap κ ν :=
  ⟨m.entries.filter fun e => keep e.1 e.2, m.ascending.filter _⟩

def erase (m : OrdMap κ ν) (k : κ) : OrdMap κ ν := m.filter fun k' _ => rank k' != rank k

def mapValues (m : OrdMap κ ν) (f : ν → μ) : OrdMap κ μ :=
  ⟨m.entries.map fun e => (e.1, f e.2), by
    simpa [List.pairwise_map] using m.ascending⟩

def keys (m : OrdMap κ ν) : List κ := m.entries.map (·.1)

def values (m : OrdMap κ ν) : List ν := m.entries.map (·.2)

def size (m : OrdMap κ ν) : Nat := m.entries.length

def isEmpty (m : OrdMap κ ν) : Bool := m.entries.isEmpty

theorem lookup_eq_none {k : κ} {es : List (κ × ν)} :
    lookup k es = none ↔ ∀ e ∈ es, e.1 ≠ k := by
  induction es with
  | nil => simp [lookup]
  | cons e es ih =>
    by_cases h : e.1 = k
    · simp [lookup, h]
    · simp [lookup, rank_eq_iff, h, ih]

theorem lookup_eq_some {k : κ} {v : ν} {es : List (κ × ν)}
    (hs : es.Pairwise fun a b => rank a.1 < rank b.1) :
    lookup k es = some v ↔ (k, v) ∈ es := by
  induction es with
  | nil => simp [lookup]
  | cons e es ih =>
    obtain ⟨hhead, htail⟩ := List.pairwise_cons.1 hs
    obtain ⟨k', v'⟩ := e
    by_cases h : k' = k
    · subst h
      have habs : (k', v) ∉ es := fun hm => Nat.lt_irrefl _ (hhead (k', v) hm)
      simp [lookup, habs, eq_comm]
    · have hne : k ≠ k' := fun h' => h h'.symm
      simp [lookup, rank_eq_iff, h, hne, ih htail]

theorem get?_eq_some_iff {m : OrdMap κ ν} {k : κ} {v : ν} :
    m.get? k = some v ↔ (k, v) ∈ m.entries := lookup_eq_some m.ascending

theorem get?_eq_none_iff {m : OrdMap κ ν} {k : κ} : m.get? k = none ↔ k ∉ m.keys := by
  unfold get? keys
  rw [lookup_eq_none]
  simp only [List.mem_map, not_exists, not_and]

theorem contains_iff {m : OrdMap κ ν} {k : κ} : m.contains k = true ↔ k ∈ m.keys := by
  rw [contains, Option.isSome_iff_ne_none, ne_eq, get?_eq_none_iff, Classical.not_not]

theorem mem_values {m : OrdMap κ ν} {v : ν} : v ∈ m.values ↔ ∃ k, m.get? k = some v := by
  simp only [values, get?_eq_some_iff, List.mem_map]
  constructor
  · rintro ⟨⟨k, v⟩, he, rfl⟩
    exact ⟨k, he⟩
  · rintro ⟨k, he⟩
    exact ⟨(k, v), he, rfl⟩

theorem keys_ascending (m : OrdMap κ ν) : m.keys.Pairwise fun a b => rank a < rank b :=
  List.pairwise_map.2 m.ascending

theorem nodup_keys (m : OrdMap κ ν) : m.keys.Nodup := by
  refine m.keys_ascending.imp ?_
  intro a b hab heq
  exact Nat.lt_irrefl _ (heq ▸ hab)

/-- Values that name their keys. -/
theorem map_values_eq_keys {m : OrdMap κ ν} {f : ν → κ}
    (h : ∀ {k v}, m.get? k = some v → f v = k) : m.values.map f = m.keys := by
  simp only [values, keys, List.map_map]
  apply List.map_congr_left
  intro e he
  exact h (get?_eq_some_iff.2 he)

@[simp] theorem get?_empty (k : κ) : (empty : OrdMap κ ν).get? k = none := rfl

theorem get?_insert [DecidableEq κ] (m : OrdMap κ ν) (k k' : κ) (v : ν) :
    (m.insert k v).get? k' = if k' = k then some v else m.get? k' := by
  unfold get? insert
  obtain ⟨es, hs⟩ := m
  simp only
  clear hs
  induction es with
  | nil => simp [insertEntry, lookup, rank_eq_iff, eq_comm]
  | cons e es ih =>
    unfold insertEntry
    split
    · simp [lookup, rank_eq_iff, eq_comm (a := k)]
    · split
      · rename_i _ h
        have h := rank_injective h
        subst h
        by_cases hk : k' = e.1
        · simp [lookup, hk]
        · have : ¬ e.1 = k' := fun h => hk h.symm
          simp [lookup, rank_eq_iff, hk, this]
      · rename_i _ h
        by_cases hk : e.1 = k'
        · have : k' ≠ k := fun h' => h (by rw [← h', hk])
          simp [lookup, hk, this]
        · simp [lookup, rank_eq_iff, hk, ih]

theorem get?_filter (m : OrdMap κ ν) (keep : κ → ν → Bool) (k : κ) :
    (m.filter keep).get? k = (m.get? k).filter (keep k) := by
  apply Option.ext
  intro v
  rw [get?_eq_some_iff, Option.filter_eq_some_iff, get?_eq_some_iff]
  simp [filter]

theorem get?_erase [DecidableEq κ] (m : OrdMap κ ν) (k k' : κ) :
    (m.erase k).get? k' = if k' = k then none else m.get? k' := by
  rw [erase, get?_filter]
  by_cases h : k' = k
  · subst h; cases m.get? k' <;> simp
  · have : rank k' ≠ rank k := fun hr => h (rank_injective hr)
    cases m.get? k' <;> simp [h, this]

theorem get?_mapValues (m : OrdMap κ ν) (f : ν → μ) (k : κ) :
    (m.mapValues f).get? k = (m.get? k).map f := by
  obtain ⟨es, hs⟩ := m
  unfold get? mapValues
  simp only
  clear hs
  induction es with
  | nil => rfl
  | cons e es ih => by_cases h : rank e.1 = rank k <;> simp [lookup, h, ih]

theorem eq_of_mem_entries {m : OrdMap κ ν} {e f : κ × ν} (he : e ∈ m.entries)
    (hf : f ∈ m.entries) (h : e.1 = f.1) : e = f := by
  have h₁ := get?_eq_some_iff.2 he
  have h₂ := get?_eq_some_iff.2 hf
  rw [h, h₂] at h₁
  exact Prod.ext h (Option.some.inj h₁).symm

theorem length_insertEntry_le (k : κ) (v : ν) (es : List (κ × ν)) :
    (insertEntry k v es).length ≤ es.length + 1 := by
  induction es with
  | nil => exact Nat.le_refl _
  | cons e es ih =>
    unfold insertEntry
    split
    · exact Nat.le_refl _
    · split
      · exact Nat.le_succ _
      · exact Nat.succ_le_succ ih

theorem size_insert_le (m : OrdMap κ ν) (k : κ) (v : ν) : (m.insert k v).size ≤ m.size + 1 :=
  length_insertEntry_le k v m.entries

/-- A value for a key that is there takes the place of the old one. -/
theorem keys_insert_of_contains {m : OrdMap κ ν} {k : κ} (h : m.contains k = true) (v : ν) :
    (m.insert k v).keys = m.keys := by
  obtain ⟨es, hs⟩ := m
  have hk : k ∈ es.map (·.1) := contains_iff.1 h
  simp only [keys, insert]
  clear h
  induction es with
  | nil => contradiction
  | cons e es ih =>
    obtain ⟨hhead, htail⟩ := List.pairwise_cons.1 hs
    have hle : rank e.1 ≤ rank k := by
      rcases List.mem_cons.1 hk with rfl | hk
      · exact Nat.le_refl _
      · obtain ⟨f, hf, rfl⟩ := List.mem_map.1 hk
        exact Nat.le_of_lt (hhead f hf)
    rw [insertEntry, if_neg (Nat.not_lt.2 hle)]
    split
    · rename_i heq
      rw [rank_eq_iff.1 heq]
      rfl
    · rename_i hne
      have hrest : k ∈ es.map (·.1) :=
        (List.mem_cons.1 hk).resolve_left fun he => hne (rank_eq_iff.2 he)
      rw [List.map_cons, List.map_cons, ih htail hrest]

/-- A key behind all others goes to the end. -/
theorem insertEntry_of_lt {k : κ} {es : List (κ × ν)} (h : ∀ e ∈ es, rank e.1 < rank k) (v : ν) :
    insertEntry k v es = es ++ [(k, v)] := by
  induction es with
  | nil => rfl
  | cons e es ih =>
    obtain ⟨hhead, htail⟩ := List.forall_mem_cons.1 h
    rw [insertEntry, if_neg (Nat.lt_asymm hhead), if_neg (Nat.ne_of_gt hhead), ih htail,
      List.cons_append]

theorem keys_insert_of_lt {m : OrdMap κ ν} {k : κ} (h : ∀ a ∈ m.keys, rank a < rank k) (v : ν) :
    (m.insert k v).keys = m.keys ++ [k] := by
  have hlast := insertEntry_of_lt (fun e he => h e.1 (List.mem_map_of_mem he)) v
  simp only [keys, insert, hlast, List.map_append, List.map_cons, List.map_nil]

theorem keys_erase (m : OrdMap κ ν) (k : κ) :
    (m.erase k).keys = m.keys.filter fun a => rank a != rank k := by
  simp only [keys, erase, filter, List.filter_map]
  rfl

theorem size_eq_length_keys (m : OrdMap κ ν) : m.size = m.keys.length := List.length_map _ |>.symm

theorem size_erase_lt {m : OrdMap κ ν} {k : κ} (h : m.contains k = true) :
    (m.erase k).size < m.size := by
  obtain ⟨e, he, rfl⟩ := List.mem_map.1 (contains_iff.1 h)
  exact List.length_filter_lt_length_iff_exists.2 ⟨e, he, by simp⟩

/-- Two maps with the same look-ups are the same map. -/
theorem ext_get? {m n : OrdMap κ ν} (h : ∀ k, m.get? k = n.get? k) : m = n := by
  obtain ⟨es, hs⟩ := m
  obtain ⟨fs, ht⟩ := n
  have hmem : ∀ e, e ∈ es ↔ e ∈ fs := by
    intro e
    have := h e.1
    simp only [get?] at this
    rw [← lookup_eq_some (k := e.1) (v := e.2) hs, this, lookup_eq_some ht]
  clear h
  suffices es = fs by subst this; rfl
  induction es generalizing fs with
  | nil =>
    cases fs with
    | nil => rfl
    | cons f fs => simpa using hmem f
  | cons e es ih =>
    cases fs with
    | nil => simpa using hmem e
    | cons f fs =>
      obtain ⟨he, hes⟩ := List.pairwise_cons.1 hs
      obtain ⟨hf, hfs⟩ := List.pairwise_cons.1 ht
      have hef : e = f := by
        rcases List.mem_cons.1 ((hmem e).1 List.mem_cons_self) with h | h
        · exact h
        · rcases List.mem_cons.1 ((hmem f).2 List.mem_cons_self) with h' | h'
          · exact h'.symm
          · exact absurd (hf e h) (Nat.lt_asymm (he f h'))
      subst hef
      congr 1
      refine ih hes fs hfs fun x => ⟨fun hx => ?_, fun hx => ?_⟩
      · rcases List.mem_cons.1 ((hmem x).1 (List.mem_cons_of_mem _ hx)) with rfl | h
        · exact absurd (he x hx) (Nat.lt_irrefl _)
        · exact h
      · rcases List.mem_cons.1 ((hmem x).2 (List.mem_cons_of_mem _ hx)) with rfl | h
        · exact absurd (hf x hx) (Nat.lt_irrefl _)
        · exact h

end OrdMap

end PagePool
