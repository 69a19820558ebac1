import PagePool.Decimal

namespace PagePool

/-- Counters of a pool; each wraps around at `2 ^ 64`. -/
structure Statistics where
  hits : UInt64
  misses : UInt64
  evictions : UInt64
  pagesRead : UInt64
  pagesWritten : UInt64
  commits : UInt64
  aborts : UInt64
  deriving DecidableEq, Repr

namespace Statistics

def zero : Statistics := ⟨0, 0, 0, 0, 0, 0, 0⟩

/-- The share of accesses that hit, or zero before the first access. -/
def hitRate (s : Statistics) : Float :=
  let total := s.hits + s.misses
  if total = 0 then 0 else s.hits.toFloat / total.toFloat

/-- The counters in one line; the hit rate is a percentage with two places. -/
def text (s : Statistics) : String :=
  "Stats \x7b hits: " ++ toString s.hits ++ ", misses: " ++ toString s.misses ++
    ", evictions: " ++ toString s.evictions ++
    ", hit_rate: " ++ Decimal.fixed 2 (s.hitRate * 100) ++
    "%, commits: " ++ toString s.commits ++ ", aborts: " ++ toString s.aborts ++ " \x7d"

end Statistics

end PagePool
