/-!
# Decimal literals

A number as it was written: sign, digits, and the power of ten if it had a fraction or an exponent.
Nothing is rounded, so an integer is told apart from `1.0` and `1e0` (`toNat?`). The only use of
binary floating point is the question whether a literal is beyond the largest double. It has two
answers: one for a reader that rounds the literal once (`overflows`), and one for a reader that
takes a product of two doubles for it (`overflowsAsProduct`).
-/

namespace Lineage

/-- The number `± significand · 10 ^ exponent`; no exponent if it was written as an integer. -/
structure Decimal where
  negative : Bool := false
  significand : Nat
  exponent : Option Int := none
deriving DecidableEq, Repr

namespace Decimal

def ofNat (n : Nat) : Decimal := { significand := n }

/-- The value of an unsigned integer literal. -/
def toNat? (d : Decimal) : Option Nat :=
  if d.negative || d.exponent.isSome then none else some d.significand

/-- What rounds to infinity: half a unit in the last place above the largest double. -/
def doubleLimit : Nat := Nat.pow 2 1024 - Nat.pow 2 970

/-- Whether the literal is too large for a double. Far from the limit the number of digits
decides, so that no power of ten is computed for an absurd exponent. -/
def overflows (d : Decimal) : Bool :=
  let exponent := d.exponent.getD 0
  let top : Int := (Nat.toDigits 10 d.significand).length + exponent
  if d.significand = 0 || top < 300 then false
  else if 320 < top then true
  else if 0 ≤ exponent then doubleLimit ≤ d.significand * Nat.pow 10 exponent.toNat
  else doubleLimit * Nat.pow 10 (-exponent).toNat ≤ d.significand

/-- A number rounded to the 53 binary digits of a double, a tie to the even neighbour. -/
def roundDouble (n : Nat) : Nat :=
  let unit := Nat.pow 2 (n.log2 - 52)
  let units := n / unit
  let rest := n % unit
  if 2 * rest < unit || (2 * rest = unit && units % 2 = 0) then units * unit
  else (units + 1) * unit

/-- The first digits of a number, as many as fit in 64 bits, and how many come after them. -/
def leading (n : Nat) : Nat × Nat :=
  let dropped := (Nat.toDigits 10 n).length - 20
  if n / Nat.pow 10 dropped < Nat.pow 2 64 then (n / Nat.pow 10 dropped, dropped)
  else (n / Nat.pow 10 (dropped + 1), dropped + 1)

/-- Whether the product of the leading digits and the power of ten is too large for a double, if
each of the three is rounded to one. -/
def overflowsAsProduct (d : Decimal) : Bool :=
  let (digits, dropped) := leading d.significand
  let exponent := d.exponent.getD 0 + dropped
  if digits = 0 || exponent < 0 then false
  else if 308 < exponent then true
  else doubleLimit ≤ roundDouble digits * roundDouble (Nat.pow 10 exponent.toNat)

/-! ## Text -/

def digits (cs : List Char) : List Char × List Char :=
  (cs.takeWhile Char.isDigit, cs.dropWhile Char.isDigit)

def value (ds : List Char) : Nat := Nat.ofDigitChars 10 ds 0

def write (d : Decimal) : List Char :=
  (if d.negative then ['-'] else []) ++ Nat.toDigits 10 d.significand ++
    match d.exponent with
    | none => []
    | some (.ofNat e) => 'e' :: Nat.toDigits 10 e
    | some (.negSucc e) => 'e' :: '-' :: Nat.toDigits 10 (e + 1)

theorem value_toDigits (n : Nat) : value (Nat.toDigits 10 n) = n :=
  Nat.ofDigitChars_toDigits (by decide) (by decide)

end Decimal

end Lineage
