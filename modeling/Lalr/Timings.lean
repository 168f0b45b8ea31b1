import Lalr.Decimal
import Lalr.Text

namespace Lalr

/-- A length of time in nanoseconds, of fewer than 2 to the power 64 whole seconds. -/
structure Span where
  nanoseconds : Nat
  deriving DecidableEq

namespace Span

def perSecond : Nat := 1000000000

def ofNanoseconds? (n : Nat) : Option Span :=
  if n < 18446744073709551616 * perSecond then some ⟨n⟩ else none

def ofParts? (seconds nanoseconds : Nat) : Option Span :=
  ofNanoseconds? (seconds * perSecond + nanoseconds)

def seconds (s : Span) : Nat := s.nanoseconds / perSecond

def subsecond (s : Span) : Nat := s.nanoseconds % perSecond

def sum? (spans : List Span) : Option Span :=
  ofNanoseconds? (spans.foldl (fun n s => n + s.nanoseconds) 0)

/-- A length with three decimal places, in the largest unit of which it has a whole one. -/
def text (s : Span) : String :=
  if perSecond ≤ s.nanoseconds then Decimal.fixed 3 s.nanoseconds perSecond ++ "s"
  else if 1000000 ≤ s.nanoseconds then Decimal.fixed 3 s.nanoseconds 1000000 ++ "ms"
  else if 1000 ≤ s.nanoseconds then Decimal.fixed 3 s.nanoseconds 1000 ++ "µs"
  else Decimal.fixed 3 s.nanoseconds 1 ++ "ns"

def toFloat (s : Span) : Float :=
  s.seconds.toUInt64.toFloat + s.subsecond.toUInt64.toFloat / perSecond.toUInt64.toFloat

def percentOf (s total : Span) : Float :=
  if total.nanoseconds = 0 then 0.0 else s.toFloat * 100.0 / total.toFloat

end Span

structure Timings where
  checking : Span
  machine : Span
  propagation : Span
  tables : Span
  reductions : Span

namespace Timings

def total? (t : Timings) : Option Span :=
  Span.sum? [t.checking, t.machine, t.propagation, t.tables, t.reductions]

def line (total : Span) (label : String) (s : Span) : String :=
  "    " ++ Text.padRight 22 label ++ Text.padLeft 12 ' ' s.text
    ++ " (" ++ Text.padLeft 5 ' ' (Decimal.fixedFloat 1 (s.percentOf total)) ++ "%)"

def text (t : Timings) : Option String := do
  let total ← t.total?
  return Text.lines [
    "  Timing Summary",
    line total "Total time" total,
    line total "  Checking" t.checking,
    line total "  Machine" t.machine,
    line total "  Propagation" t.propagation,
    line total "  Table" t.tables,
    line total "  Reductions" t.reductions]

end Timings

end Lalr
