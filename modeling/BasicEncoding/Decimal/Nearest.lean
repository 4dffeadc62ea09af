import BasicEncoding.Binary64

/-! The binary floating point number nearest to a decimal one, a tie going to the even significand.
-/
namespace BasicEncoding.Decimal

/-- A quotient rounded to the nearest integer, a tie to the even one. -/
def roundedQuotient (numerator denominator : Nat) : Nat :=
  let whole := numerator / denominator
  let twice := 2 * (numerator % denominator)
  if denominator < twice ∨ twice = denominator ∧ whole % 2 = 1 then whole + 1 else whole

def quotientLog2 (numerator denominator : Nat) : Int :=
  let guess : Int := numerator.log2 - denominator.log2
  if numerator * 2 ^ (-guess).toNat < denominator * 2 ^ guess.toNat then guess - 1 else guess

/-- The number nearest to a quotient. The lowest bit of the result cannot be below that of the
subnormal numbers; rounding up to the next power of two carries into the exponent field. -/
def nearest (negative : Bool) (numerator denominator : Nat) : Binary64 :=
  if numerator = 0 then .ofFields negative 0 0
  else
    let scale := max (quotientLog2 numerator denominator - Binary64.fractionBits)
      Binary64.subnormalExponent
    let significand :=
      roundedQuotient (numerator * 2 ^ (-scale).toNat) (denominator * 2 ^ scale.toNat)
    let fields := (scale - Binary64.subnormalExponent).toNat * 2 ^ 52 + significand
    if 2047 * 2 ^ 52 ≤ fields then .infinity negative
    else .ofFields negative (fields / 2 ^ 52) (fields % 2 ^ 52)

def toBinary64 (negative : Bool) (digits : Nat) (exponent : Int) : Binary64 :=
  nearest negative (digits * 10 ^ exponent.toNat) (10 ^ (-exponent).toNat)

end BasicEncoding.Decimal
