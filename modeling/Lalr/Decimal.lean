import Lalr.Text

namespace Lalr.Decimal

/-- The whole number nearest to `num / den`. -/
def roundDiv (num den : Nat) : Nat :=
  let down := num / den
  let rest := num % den
  if 2 * rest < den then down
  else if den < 2 * rest then down + 1
  else if down % 2 = 0 then down
  else down + 1

def fixed (places num den : Nat) : String :=
  let unit := Nat.pow 10 places
  let scaled := roundDiv (num * unit) den
  let digits := toString (scaled % unit)
  toString (scaled / unit) ++ "." ++ Text.padLeft places '0' digits

/-- The fraction that a finite nonnegative double stands for. -/
def fraction (x : Float) : Nat × Nat :=
  let bits := x.toBits.toNat
  let exponent := bits >>> 52 &&& 0x7ff
  let fraction := bits &&& 0xfffffffffffff
  if exponent = 0 then (fraction, 1 <<< 1074)
  else
    let mantissa := fraction + 0x10000000000000
    if 1075 ≤ exponent then (mantissa <<< (exponent - 1075), 1)
    else (mantissa, 1 <<< (1075 - exponent))

/-- A finite nonnegative double with the given number of decimal places, rounded from its exact
value. -/
def fixedFloat (places : Nat) (x : Float) : String :=
  let (num, den) := fraction x
  fixed places num den

end Lalr.Decimal
