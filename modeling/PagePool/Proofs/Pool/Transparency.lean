import PagePool.Proofs.Pool.Passes

namespace PagePool.World

variable {w : World} {p : Pool} {capacity : Nat} {catalog : Catalog} {journal : Journal}

/-- Whoever else makes calls in between, whatever pages are evicted or flushed, and whatever log
and store refuse: a fetch that succeeds hands out the bytes that its transaction has set, or else
the committed ones, and a scan the tuples on such bytes of every page that it set out to read. Only
a scan of no pages succeeds before it has asked for a lock. -/
theorem answers_without_cache (hs : catalog.Sound)
    (hp : Pool.make capacity catalog journal = .ok p) (hw : Reaches Orderly (ofPool p) w) :
    (∀ (i n step : Nat) (call : Pending Call) (t : TransactionId) (q : PageId) (answer : Answer),
      w.session.pending[i]? = some call → call.call.request.tid = t →
      call.call.request.page = q →
      (w.session.resume (Pool.runCall n) i).1 = some (step, .ok answer) →
        (call.call.task = .fetch → ∃ page, answer = .page page ∧ page.id = q ∧
          page.data = (w.ledger.pending t q).getD (w.ledger.committed q) ∧
          page.before = w.ledger.committed q ∧
          page.dirtiedBy = (w.ledger.pending t q).map fun _ => t) ∧
        ∀ rest found, call.call.task = .scan rest found →
          answer =
            .tuples ((w.scanned t).flatMap (w.ledger.tuplesIn w.pool.catalog.layout? t))) ∧
    ∀ step c answer, (w.issue step c).1 = some (.ok answer) →
      answer = .tuples ((w.scannedAfter c c.tid).flatMap
        (w.ledger.tuplesIn w.pool.catalog.layout? c.tid)) := by
  have hconsistent : w.Consistent :=
    hw.consistent (fun _ _ => id) (consistent_ofPool hs hp)
  constructor
  · rintro i n step call t q answer hi rfl rfl h
    have hanswers := hconsistent.answers hi h
    simp only [Pool.Answers] at hanswers
    constructor
    · intro hfetch
      rw [hfetch] at hanswers
      exact ⟨w.ledger.page call.call.request.tid call.call.request.page, hanswers, rfl, rfl, rfl,
        rfl⟩
    · intro rest found hscan
      rw [hscan] at hanswers
      exact hanswers
  · intro step c answer h
    exact hconsistent.answers_at_once h

/-- The first transaction has put a tuple into the page and asks for it again. -/
def insertThenFetch : List Action :=
  [.begin, .call 0 (.insert ⟨1⟩ ⟨1⟩ [7]), .turn 0, .call 1 (.fetch ⟨1⟩ ⟨⟨1⟩, 0⟩ .readOnly)]

theorem answers_own_insert :
    ∃ page, (((ofPool onePage).performAll insertThenFetch).session.resume
        (Pool.runCall 1) 0).1 = some (1, .ok (.page page)) ∧
      page.data = [1, 7] ∧ page.before = [0, 0] := by
  have hw : Reaches Orderly (ofPool onePage) ((ofPool onePage).performAll insertThenFetch) :=
    Reaches.refl.performAll (by decide)
  have hanswer : (((ofPool onePage).performAll insertThenFetch).session.resume
      (Pool.runCall 1) 0).1 =
        some (1, .ok (.page ⟨⟨⟨1⟩, 0⟩, [1, 7], [0, 0], some ⟨1⟩⟩)) := by rfl
  obtain ⟨hfetch, -⟩ := (answers_without_cache Catalog.sound_oneSlot make_onePage hw).1
    0 1 1 _ _ _ _ rfl rfl rfl hanswer
  obtain ⟨page, hpage, -, hdata, hbefore, -⟩ := hfetch rfl
  exact ⟨page, hpage ▸ hanswer, hdata, hbefore⟩

end PagePool.World
