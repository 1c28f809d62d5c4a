import ExamMarkup.Decimal.Binary
import ExamMarkup.Store.Basic

/-!
# Reports on a store

The figures of a store since its tallies were last reset with the share of lookups that found a
page, and its metrics under their public names.
-/

namespace ExamMarkup

/-- A number with `places` digits after the point, rounded once to the nearest, a half to the even
last digit. -/
def Decimal.fixed (places : Nat) (x : Decimal.Binary) : Text :=
  let scaled := Decimal.roundDiv (x.num * 10 ^ places) x.den
  let fraction := Text.decimal (scaled % 10 ^ places)
  Text.decimal (scaled / 10 ^ places) ++ ['.'] ++
    List.replicate (places - fraction.length) '0' ++ fraction

def Tallies.hitRate (t : Tallies) : Decimal.Binary :=
  (Decimal.Binary.ofQuotient? t.hits (t.hits + t.misses)).getD .zero

def Tallies.hitRateText (t : Tallies) : Text := Decimal.fixed 6 t.hitRate

/-- The metrics that have been touched, by name. A counter of zero has not been. -/
def Metrics.report (m : Metrics) : List (Text × Nat) :=
  let counter (event : String) (n : Nat) : List (Text × Nat) :=
    if n = 0 then []
    else [("examark_render_cache_".toList ++ event.toList ++ "_total".toList, n)]
  counter "hit" m.hits ++ counter "miss" m.misses ++ counter "set" m.sets ++
    counter "evict" m.evictions ++ counter "expired" m.expirations ++
    (m.entries.map fun n => ("examark_render_cache_entries".toList, n)).toList

structure StoreFigures where
  tallies : Tallies
  entries : Nat
  bytes : Nat
  deriving DecidableEq, Repr

def Store.figures (s : Store) : StoreFigures := ⟨s.tallies, s.entries.length, s.byteSize⟩

end ExamMarkup
