import PagePool.Proofs.Store.Opening

namespace PagePool

/-- What changes which tables a catalog has and which ids it hands out. Others may work on the files
between two calls, and create there the tables that are added. -/
inductive CatalogCall where
  | takeId
  | createTable (name : String) (tupleSize : Nat)
  | openTable (name : String) (tupleSize : Nat)
  | add (t : HeapTable)
  | elsewhere (files : Files)

/-- The file on which the call makes a table of the catalog. -/
def CatalogCall.file? : CatalogCall → Option String
  | createTable name _ => some name
  | openTable name _ => some name
  | _ => none

namespace Catalog

variable {c c' : Catalog} {t : HeapTable} {i j : TableId} {call : CatalogCall}
  {calls more : List CatalogCall} {name : String}

/-- The id that the call hands out, and the catalog after it. -/
def perform (c : Catalog) : CatalogCall → Option TableId × Catalog
  | .takeId => c.takeId.map some id
  | .createTable name tupleSize => (c.createTable name tupleSize).map Except.toOption id
  | .openTable name tupleSize => (c.openTable name tupleSize).map Except.toOption id
  | .add t => (none, c.add t)
  | .elsewhere files => (none, { c with files })

/-- The ids that the calls hand out, in order, and the catalog after them. -/
def run (c : Catalog) : List CatalogCall → List TableId × Catalog
  | [] => ([], c)
  | call :: calls =>
    let (id?, c) := c.perform call
    let (ids, c) := run c calls
    (id?.toList ++ ids, c)

/-- The call does not take the counter past 32 bits. -/
def Counts (c : Catalog) : CatalogCall → Prop
  | .add t => t.id.number.toNat + 1 < UInt32.size
  | .elsewhere _ => True
  | _ => c.nextId.toNat + 1 < UInt32.size

/-- No call of the run takes the counter past 32 bits. -/
def CountsAll (c : Catalog) : List CatalogCall → Prop
  | [] => True
  | call :: calls => c.Counts call ∧ CountsAll (c.perform call).2 calls

/-- Every table stands under its own id, which the counter has passed. -/
structure Numbered (c : Catalog) : Prop where
  id_eq : ∀ {i t}, c.tables.get? i = some t → t.id = i
  lt_nextId : ∀ {i t}, c.tables.get? i = some t → i.number.toNat < c.nextId.toNat

/-- The table stands under the id, and what is asked of pages under this id is asked of it. -/
structure Routes (c : Catalog) (i : TableId) (t : HeapTable) : Prop where
  table_eq : c.table i = .ok t
  numPages_eq : c.numPages i = .ok t.numPages
  checkPage_eq : ∀ {q : PageId}, q.table = i → t.checkPage q = .ok ()
  readPage_eq : ∀ {q : PageId}, q.table = i → c.readPage q = t.readPage c.files q
  writePage_eq : ∀ {page : Page}, page.id.table = i →
    c.writePage page = (t.writePage c.files page).map fun files => { c with files }

theorem Numbered.routes (hn : c.Numbered) (ht : c.tables.get? i = some t) : c.Routes i t := by
  have htable := table_eq_ok.2 ht
  refine ⟨htable, ?_, fun hq => ?_, fun hq => ?_, fun hq => ?_⟩
  · rw [numPages, htable]
    rfl
  · rw [HeapTable.checkPage, hq, hn.id_eq ht, if_pos rfl]
  · rw [readPage, hq, htable]
  · rw [writePage, hq, htable]

/-! One call. -/

theorem nextId_takeId (h : c.nextId.toNat + 1 < UInt32.size) :
    c.takeId.2.nextId.toNat = c.nextId.toNat + 1 := by
  simp only [UInt32.size] at h
  simp only [takeId, UInt32.toNat_add, UInt32.toNat_one]
  omega

theorem nextId_add (c : Catalog) (h : t.id.number.toNat + 1 < UInt32.size) :
    (c.add t).nextId.toNat = max c.nextId.toNat (t.id.number.toNat + 1) := by
  have hnext : (t.id.number + 1).toNat = t.id.number.toNat + 1 := by
    simp only [UInt32.size] at h
    simp only [UInt32.toNat_add, UInt32.toNat_one]
    omega
  have hmax : (c.add t).nextId =
      if c.nextId ≤ t.id.number + 1 then t.id.number + 1 else c.nextId := rfl
  rw [hmax, ← hnext, apply_ite UInt32.toNat]
  simp only [UInt32.le_iff_toNat_le]
  exact Nat.max_def.symm

/-- What a call can do: nothing to the tables, or only take an id, or take one and register a table
under it, or register a table under the id that came with it. -/
theorem perform_cases (c : Catalog) (call : CatalogCall) (hcounts : c.Counts call) :
    (∃ files, call.file? = none ∧ c.perform call = (none, { c with files })) ∨
    (∃ id?, c.perform call = (id?, c.takeId.2) ∧ c.nextId.toNat + 1 < UInt32.size ∧
      (id? = none ∨ call = .takeId ∧ id? = some c.takeId.1)) ∨
    (∃ t files, call.file? = some t.file.name ∧ t.id = c.takeId.1 ∧
      c.nextId.toNat + 1 < UInt32.size ∧
      c.perform call = (some t.id, { c.takeId.2 with files }.add t)) ∨
    ∃ t, call = .add t ∧ t.id.number.toNat + 1 < UInt32.size ∧ c.perform call = (none, c.add t) := by
  cases call with
  | takeId => exact .inr (.inl ⟨_, rfl, hcounts, .inr ⟨rfl, rfl⟩⟩)
  | createTable name tupleSize =>
    refine .inr ?_
    simp only [perform, createTable]
    cases hc : HeapTable.create c.takeId.2.files c.takeId.1 name c.takeId.2.pageSize tupleSize with
    | error e => exact .inl ⟨_, rfl, hcounts, .inl rfl⟩
    | ok made =>
      obtain ⟨t, files⟩ := made
      obtain ⟨-, -, hid, rfl, -⟩ := HeapTable.create_eq_ok hc
      exact .inr (.inl ⟨t, files, rfl, hid, hcounts, by rw [hid]; rfl⟩)
  | openTable name tupleSize =>
    refine .inr ?_
    simp only [perform, openTable]
    cases ho : HeapTable.openExisting c.takeId.2.files c.takeId.1 name c.takeId.2.pageSize
        tupleSize with
    | error e => exact .inl ⟨_, rfl, hcounts, .inl rfl⟩
    | ok t =>
      obtain ⟨hid, rfl, -⟩ := HeapTable.openExisting_eq_ok ho
      exact .inr (.inl ⟨t, c.files, rfl, hid, hcounts, by rw [hid]; rfl⟩)
  | add t => exact .inr (.inr (.inr ⟨t, rfl, hcounts, rfl⟩))
  | elsewhere files => exact .inl ⟨files, rfl, rfl⟩

theorem Numbered.add (hn : c.Numbered) (ht : t.id.number.toNat + 1 < UInt32.size) :
    (c.add t).Numbered := by
  have hcases {j : TableId} {u : HeapTable} (hu : (c.add t).tables.get? j = some u) :
      j = t.id ∧ u = t ∨ c.tables.get? j = some u := by
    simp only [Catalog.add, OrdMap.get?_insert] at hu
    split at hu
    · exact .inl ⟨‹_›, (Option.some.inj hu).symm⟩
    · exact .inr hu
  constructor
  · intro j u hu
    rcases hcases hu with ⟨rfl, rfl⟩ | hu
    · rfl
    · exact hn.id_eq hu
  · intro j u hu
    rw [nextId_add c ht]
    rcases hcases hu with ⟨rfl, rfl⟩ | hu
    · omega
    · have := hn.lt_nextId hu
      omega

theorem Numbered.takeId (hn : c.Numbered) (h : c.nextId.toNat + 1 < UInt32.size) (files : Files) :
    { c.takeId.2 with files }.Numbered := by
  refine ⟨hn.id_eq, fun hu => ?_⟩
  have hlt := hn.lt_nextId hu
  have hnext := nextId_takeId h
  simp only at hnext ⊢
  omega

theorem Numbered.perform (hn : c.Numbered) (hcounts : c.Counts call) :
    (c.perform call).2.Numbered := by
  obtain ⟨files, -, h⟩ | ⟨id?, h, hnext, -⟩ | ⟨t, files, -, hid, hnext, h⟩ | ⟨t, -, ht, h⟩ :=
    perform_cases c call hcounts
  · rw [h]
    exact ⟨hn.id_eq, hn.lt_nextId⟩
  · rw [h]
    exact hn.takeId hnext c.files
  · rw [h]
    exact (hn.takeId hnext files).add (by rw [hid]; exact hnext)
  · rw [h]
    exact hn.add ht

/-- The counter never goes back, and it passes the id that is handed out. -/
theorem nextId_perform (hcounts : c.Counts call) :
    c.nextId.toNat ≤ (c.perform call).2.nextId.toNat ∧
      ∀ j, (c.perform call).1 = some j →
        j = ⟨c.nextId⟩ ∧ c.nextId.toNat < (c.perform call).2.nextId.toNat := by
  obtain ⟨files, -, h⟩ | ⟨id?, h, hnext, hid⟩ | ⟨t, files, -, hid, hnext, h⟩ | ⟨t, -, ht, h⟩ :=
    perform_cases c call hcounts
  · rw [h]
    exact ⟨Nat.le_refl _, nofun⟩
  · rw [h, nextId_takeId hnext]
    refine ⟨Nat.le_succ _, fun j hj => ⟨?_, Nat.lt_succ_self _⟩⟩
    rcases hid with rfl | ⟨-, rfl⟩
    · contradiction
    · exact (Option.some.inj hj).symm
  · have hadd := nextId_add { c.takeId.2 with files } (t := t) (by rw [hid]; exact hnext)
    have htake := nextId_takeId hnext
    rw [h]
    simp only at hadd htake ⊢
    refine ⟨by omega, fun j hj => ⟨?_, by omega⟩⟩
    rw [← Option.some.inj hj, hid]
    rfl
  · rw [h, nextId_add c ht]
    exact ⟨Nat.le_max_left _ _, nofun⟩

/-- No table loses its place to a call, unless one is added under its id. -/
theorem Numbered.get?_perform (hn : c.Numbered) (hcounts : c.Counts call)
    (ht : c.tables.get? i = some t) (hadd : ∀ u, call = .add u → u.id ≠ i) :
    (c.perform call).2.tables.get? i = some t := by
  obtain ⟨files, -, h⟩ | ⟨id?, h, -, -⟩ | ⟨u, files, -, hid, -, h⟩ | ⟨u, hu, -, h⟩ :=
    perform_cases c call hcounts
  · rw [h]
    exact ht
  · rw [h]
    exact ht
  · have hne : i ≠ u.id := by
      rintro rfl
      have hlt := hn.lt_nextId ht
      rw [hid] at hlt
      exact Nat.lt_irrefl _ hlt
    rw [h]
    exact (OrdMap.get?_insert _ _ _ _).trans ((if_neg hne).trans ht)
  · rw [h]
    exact (OrdMap.get?_insert _ _ _ _).trans ((if_neg (Ne.symm (hadd u hu))).trans ht)

/-- A table that is made is found under the id that was handed out for it. -/
theorem get?_perform_of_file (hcounts : c.Counts call) (hfile : call.file? = some name)
    (hj : (c.perform call).1 = some j) :
    ∃ t, t.file.name = name ∧ (c.perform call).2.tables.get? j = some t := by
  obtain ⟨files, hnone, h⟩ | ⟨id?, h, -, hid⟩ | ⟨t, files, hname, hid, -, h⟩ | ⟨t, hadd, -, h⟩ :=
    perform_cases c call hcounts
  · rw [hfile] at hnone
    contradiction
  · rw [h] at hj
    rcases hid with rfl | ⟨rfl, -⟩ <;> contradiction
  · rw [h] at hj ⊢
    obtain rfl := Option.some.inj hj
    exact ⟨t, Option.some.inj (hname.symm.trans hfile),
      (OrdMap.get?_insert _ _ _ _).trans (if_pos rfl)⟩
  · rw [h] at hj
    contradiction

/-! A run of calls. -/

theorem numbered_empty (pageSize : Nat) (files : Files) : (Catalog.empty pageSize files).Numbered :=
  ⟨nofun, nofun⟩

theorem run_append (c : Catalog) (calls more : List CatalogCall) :
    c.run (calls ++ more) =
      ((c.run calls).1 ++ ((c.run calls).2.run more).1, ((c.run calls).2.run more).2) := by
  induction calls generalizing c with
  | nil => rfl
  | cons call calls ih => simp only [List.cons_append, run, ih, List.append_assoc]

theorem countsAll_append :
    c.CountsAll (calls ++ more) ↔ c.CountsAll calls ∧ (c.run calls).2.CountsAll more := by
  induction calls generalizing c with
  | nil => exact (iff_of_eq (true_and _)).symm
  | cons call calls ih => simp only [List.cons_append, CountsAll, run, ih, and_assoc]

theorem Numbered.run (hn : c.Numbered) (hcounts : c.CountsAll calls) : (c.run calls).2.Numbered := by
  induction calls generalizing c with
  | nil => exact hn
  | cons call calls ih => exact ih (hn.perform hcounts.1) hcounts.2

theorem Numbered.get?_run (hn : c.Numbered) (hcounts : c.CountsAll calls)
    (ht : c.tables.get? i = some t) (hadd : ∀ u, .add u ∈ calls → u.id ≠ i) :
    (c.run calls).2.tables.get? i = some t := by
  induction calls generalizing c with
  | nil => exact ht
  | cons call calls ih =>
    have hcall : ∀ u, call = .add u → u.id ≠ i :=
      fun u hu => hadd u (List.mem_cons.2 (.inl hu.symm))
    exact ih (hn.perform hcounts.1) hcounts.2 (hn.get?_perform hcounts.1 ht hcall)
      fun u hu => hadd u (List.mem_cons_of_mem call hu)

/-- The ids of a run come from its counter, which passes each of them. -/
theorem run_ids (hcounts : c.CountsAll calls) :
    (c.run calls).1.Pairwise (·.number < ·.number) ∧
      ∀ j ∈ (c.run calls).1, c.nextId ≤ j.number := by
  induction calls generalizing c with
  | nil => exact ⟨.nil, nofun⟩
  | cons call calls ih =>
    obtain ⟨hle, hid⟩ := nextId_perform hcounts.1
    obtain ⟨hpairs, hfrom⟩ := ih hcounts.2
    simp only [Catalog.run]
    cases hj : (c.perform call).1 with
    | none =>
      exact ⟨hpairs, fun j hmem => UInt32.le_trans (UInt32.le_iff_toNat_le.2 hle) (hfrom j hmem)⟩
    | some j =>
      obtain ⟨rfl, hlt⟩ := hid j hj
      have hlater : ∀ k ∈ ((c.perform call).2.run calls).1, c.nextId < k.number :=
        fun k hk => UInt32.lt_of_lt_of_le (UInt32.lt_iff_toNat_lt.2 hlt) (hfrom k hk)
      refine ⟨List.pairwise_cons.2 ⟨hlater, hpairs⟩, ?_⟩
      intro k hk
      rcases List.mem_cons.1 hk with rfl | hk
      · exact UInt32.le_refl _
      · exact UInt32.le_of_lt (hlater k hk)

theorem nextId_le_run (hcounts : c.CountsAll calls) :
    c.nextId.toNat ≤ (c.run calls).2.nextId.toNat := by
  induction calls generalizing c with
  | nil => exact Nat.le_refl _
  | cons call calls ih => exact Nat.le_trans (nextId_perform hcounts.1).1 (ih hcounts.2)

/-- An id that is handed out is above all under which tables stood at any time before. -/
theorem Numbered.lt_of_perform_run (hn : c.Numbered) (hcounts : c.CountsAll calls)
    (hcall : (c.run calls).2.Counts call) (hj : ((c.run calls).2.perform call).1 = some j)
    (hi : i ∈ c.tableIds) : i.number < j.number := by
  cases ht : c.tables.get? i with
  | none => exact absurd hi (OrdMap.get?_eq_none_iff.1 ht)
  | some t =>
    obtain ⟨rfl, -⟩ := (nextId_perform hcall).2 j hj
    exact UInt32.lt_iff_toNat_lt.2 (Nat.lt_of_lt_of_le (hn.lt_nextId ht) (nextId_le_run hcounts))

/-- As long as no call takes the counter past 32 bits, the ids that are handed out ascend, and each
of them is above every id under which a table stood before. A table that is made is found under the
id handed out for it, one that is added under its own, and both stay there, with what is asked of
their pages asked of them, until a table is added under the same id. -/
theorem ids_never_collide (pageSize : Nat) (files : Files)
    (hcounts : (empty pageSize files).CountsAll calls) :
    ((empty pageSize files).run calls).1.Pairwise (·.number < ·.number) ∧
    (∀ first before call after, calls = first ++ (before ++ call :: after) →
      let c := ((empty pageSize files).run (first ++ before)).2
      (∀ j, (c.perform call).1 = some j →
        (∀ i ∈ ((empty pageSize files).run first).2.tableIds, i.number < j.number) ∧
        ∀ name, call.file? = some name →
          ∃ t, t.file.name = name ∧ (c.perform call).2.Routes j t) ∧
      ∀ t, call = .add t → (c.perform call).2.Routes t.id t) ∧
    ∀ before after, calls = before ++ after →
      ∀ i t, ((empty pageSize files).run before).2.table i = .ok t →
        (∀ u, .add u ∈ after → u.id ≠ i) → ((empty pageSize files).run calls).2.Routes i t := by
  have hempty := numbered_empty pageSize files
  refine ⟨(run_ids hcounts).1, ?_, ?_⟩
  · rintro first before call after rfl
    obtain ⟨hfirst, hrest⟩ := countsAll_append.1 hcounts
    obtain ⟨hbefore, hcall, -⟩ := countsAll_append.1 hrest
    have hnumbered := hempty.run hfirst
    rw [run_append]
    have hafter := (hnumbered.run hbefore).perform hcall
    refine ⟨fun j hj => ⟨fun i hi => ?_, fun name hname => ?_⟩, ?_⟩
    · exact hnumbered.lt_of_perform_run hbefore hcall hj hi
    · obtain ⟨t, ht, hget⟩ := get?_perform_of_file hcall hname hj
      exact ⟨t, ht, hafter.routes hget⟩
    · rintro t rfl
      exact hafter.routes ((OrdMap.get?_insert _ _ _ _).trans (if_pos rfl))
  · rintro before after rfl i t ht hadd
    obtain ⟨hbefore, hafter⟩ := countsAll_append.1 hcounts
    have hnumbered := hempty.run hbefore
    rw [run_append]
    exact (hnumbered.run hafter).routes (hnumbered.get?_run hafter (table_eq_ok.1 ht) hadd)

/-- A table is made on a file, an id is taken, the file cannot be made again, a table comes with a
higher id, and the file is opened once more. -/
def mixedCalls : List CatalogCall :=
  [.createTable "a" 1, .takeId, .createTable "a" 1, .add ⟨⟨10⟩, ⟨1, 1⟩, ⟨"b", 2, 0⟩, .none⟩,
    .openTable "a" 1]

/-- The failure uses up an id, the ids after the added table are above its id, and the first table
is found as it was made. -/
theorem mixed_calls_ids :
    ((empty 2 .empty).run mixedCalls).1 = [⟨1⟩, ⟨2⟩, ⟨11⟩] ∧
    [(⟨1⟩ : TableId), ⟨2⟩, ⟨11⟩].Pairwise (·.number < ·.number) ∧
    ((empty 2 .empty).run mixedCalls).2.Routes ⟨1⟩ ⟨⟨1⟩, ⟨1, 1⟩, ⟨"a", 2, 0⟩, .none⟩ := by
  have hcounts : (empty 2 .empty).CountsAll mixedCalls := by
    refine ⟨?_, ?_, ?_, ?_, ?_, trivial⟩ <;> exact Nat.le_of_ble_eq_true rfl
  obtain ⟨hascending, -, hkept⟩ := ids_never_collide 2 .empty hcounts
  have hids : ((empty 2 .empty).run mixedCalls).1 = [⟨1⟩, ⟨2⟩, ⟨11⟩] := rfl
  have hmade : ((empty 2 .empty).run (mixedCalls.take 1)).2.table ⟨1⟩ =
      .ok ⟨⟨1⟩, ⟨1, 1⟩, ⟨"a", 2, 0⟩, .none⟩ := rfl
  have hadded : ∀ u, .add u ∈ mixedCalls.drop 1 → u.id ≠ ⟨1⟩ := by
    intro u hu
    simp only [mixedCalls, List.drop_succ_cons, List.drop_zero, List.mem_cons, List.not_mem_nil,
      CatalogCall.add.injEq, reduceCtorEq, or_false, false_or] at hu
    subst hu
    decide
  exact ⟨hids, hids ▸ hascending,
    hkept (mixedCalls.take 1) (mixedCalls.drop 1) (List.take_append_drop 1 _).symm _ _ hmade hadded⟩

end Catalog

end PagePool
