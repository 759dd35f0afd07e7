import IncludeBlock.Index

/-!
# Weights in kilobytes

A weight is reported in units of 1024 bytes with one decimal. The number of
bytes is first rounded to the 53 binary digits of a floating point number; the
quotient is exact then, and its decimals are rounded, half to even.
-/

namespace IncludeBlock

namespace Decimal

/-- The whole number nearest to a quotient; of two, the even one. -/
def roundQuotient (n d : Nat) : Nat :=
  let q := n / d
  let r := n % d
  if 2 * r < d ∨ (2 * r = d ∧ q % 2 = 0) then q else q + 1

/-- The nearest number with no more than `digits` binary digits before its
zeros. -/
def roundBinary (digits n : Nat) : Nat :=
  let unit := Nat.pow 2 (n.log2 + 1 - digits)
  roundQuotient n unit * unit

def oneDecimal (n d : Nat) : String :=
  let tenths := roundQuotient (n * 10) d
  toString (tenths / 10) ++ "." ++ toString (tenths % 10)

def kilobytes (bytes : Nat) : String :=
  oneDecimal (roundBinary 53 bytes) 1024

end Decimal

/-- What an include weighs by itself and with all it pulls in. -/
structure WeightReport where
  file : Path
  own : Nat
  total : Nat
deriving DecidableEq, Repr

def WeightReport.text (w : WeightReport) : String :=
  w.file.text ++ " = " ++ Decimal.kilobytes w.own ++ "("
    ++ Decimal.kilobytes w.total ++ ") Kb"

/-- What a file weighs with all it pulls in; it is expanded for that. -/
def Index.weight (x : Index) (d : Disk) (f : Path) : Nat × Index :=
  let (e, x) := x.expand d f
  (e.weight, x)

/-- The weight of a file, which is expanded for it. -/
def Index.report (x : Index) (d : Disk) (f : Path) : WeightReport × Index :=
  let (e, x) := x.expand d f
  (⟨f, e.own, e.weight⟩, x)

end IncludeBlock
