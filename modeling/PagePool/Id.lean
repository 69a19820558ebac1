import PagePool.OrdMap

namespace PagePool

structure TableId where
  number : UInt32
  deriving DecidableEq, Repr, Inhabited

/-- One page of one table file. -/
structure PageId where
  table : TableId
  pageNo : UInt32
  deriving DecidableEq, Repr, Inhabited

structure TransactionId where
  number : UInt64
  deriving DecidableEq, Repr, Inhabited

/-- One tuple slot of one page. -/
structure RecordId where
  page : PageId
  slot : UInt16
  deriving DecidableEq, Repr, Inhabited

instance : Key TableId where
  rank t := t.number.toNat
  rank_injective {a b} h := by
    cases a; cases b; congr 1; exact UInt32.toNat.inj h

instance : Key TransactionId where
  rank t := t.number.toNat
  rank_injective {a b} h := by
    cases a; cases b; congr 1; exact UInt64.toNat.inj h

/-- Page ids are ordered by table, then by page number. -/
instance : Key PageId where
  rank p := p.table.number.toNat * UInt32.size + p.pageNo.toNat
  rank_injective {a b} h := by
    obtain ⟨⟨t⟩, n⟩ := a
    obtain ⟨⟨u⟩, m⟩ := b
    have hn := n.toNat_lt
    have hm := m.toNat_lt
    simp only [UInt32.size] at h
    have ht : t.toNat = u.toNat := by omega
    have hnm : n.toNat = m.toNat := by omega
    rw [UInt32.toNat.inj ht, UInt32.toNat.inj hnm]

theorem PageId.rank_lt_iff {a b : PageId} :
    Key.rank a < Key.rank b ↔
      a.table.number < b.table.number ∨ a.table = b.table ∧ a.pageNo < b.pageNo := by
  obtain ⟨⟨t⟩, n⟩ := a
  obtain ⟨⟨u⟩, m⟩ := b
  have hn := n.toNat_lt
  have hm := m.toNat_lt
  simp only [Key.rank, UInt32.size, UInt32.lt_iff_toNat_lt, TableId.mk.injEq, ← UInt32.toNat_inj]
  omega

/-- The position of `a` relative to `b` in key order. -/
def Key.compare {κ : Type} [Key κ] (a b : κ) : Ordering := Ord.compare (Key.rank a) (Key.rank b)

def TableId.text (t : TableId) : String := s!"Table({t.number})"

def PageId.text (p : PageId) : String := s!"Page({p.table.number}:{p.pageNo})"

def TransactionId.text (t : TransactionId) : String := s!"Txn({t.number})"

def RecordId.text (r : RecordId) : String := s!"{r.page.text}#{r.slot}"

/-- The long form of a page id, as it stands inside a page's description. -/
def PageId.description (p : PageId) : String :=
  "PageId \x7b table_id: TableId(" ++ toString p.table.number ++ "), page_no: " ++
    toString p.pageNo ++ " \x7d"

def TransactionId.description (t : TransactionId) : String :=
  "TransactionId(" ++ toString t.number ++ ")"

end PagePool
