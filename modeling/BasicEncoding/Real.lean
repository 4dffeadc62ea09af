import BasicEncoding.Binary64
import BasicEncoding.Integer

/-! REAL contents in the binary form with base 2 and no scaling: a first octet with the sign and the
width of the exponent, the exponent, and an odd mantissa. The exponent is that of the leading one of
the number, so a mantissa stands for itself divided by its own highest power of two. Special values
are single octets, and zero is written as one of them. -/
namespace BasicEncoding.Real

def plusInfinity : UInt8 := 0x40
def minusInfinity : UInt8 := 0x41
def notANumber : UInt8 := 0x42

/-- Either zero; the sign is not kept. -/
def zeroOctet : UInt8 := 0x43

/-- What remains of a number when every factor 2 is taken out; zero stays zero. -/
def oddPart (m : Nat) : Nat :=
  m / m.gcd (2 ^ m.log2)

/-- The first octet: binary encoding, the sign, and the octets of the exponent less one. -/
def firstOctet (negative : Bool) (exponentWidth : Nat) : UInt8 :=
  UInt8.ofNat (0x80 + (if negative then 0x40 else 0) + (exponentWidth - 1))

/-- REAL contents. The exponent of a number takes one or two octets. -/
def encode (x : Binary64) : Octets :=
  if x.isInfinite then [if x.isNegative then minusInfinity else plusInfinity]
  else if x.isNaN then [notANumber]
  else if x.isZero then [zeroOctet]
  else
    let exponent := Integer.encode (Int64.ofInt x.exponent)
    firstOctet x.isNegative exponent.length ::
      exponent ++ Integer.encode (Int64.ofNat (oddPart x.significand))

/-- The number with a sign, an exponent and a mantissa. Only the odd part of the mantissa matters,
and it must fit the 53 bits of a significand. -/
def assemble (negative : Bool) (exponent : Int) (mantissa : Nat) : Except Defect Binary64 :=
  if exponent = Binary64.specialExponent then
    .ok (if mantissa ≠ 0 then .nan else .infinity negative)
  else if exponent ≤ -Binary64.exponentBias ∨ Binary64.exponentBias < exponent then
    .error (.realExponentRange exponent)
  else if mantissa = 0 then
    .error .realMantissaZero
  else
    let odd := oddPart mantissa
    if 2 ^ 53 ≤ odd then .error .realMantissaTooWide
    else
      .ok (.ofFields negative (exponent + Binary64.exponentBias).toNat
        (odd * 2 ^ (52 - odd.log2) - 2 ^ 52))

def decodeFields (negative : Bool) (total exponentWidth : Nat) (fields : Octets) :
    Except Defect Binary64 := do
  if fields.length ≤ exponentWidth then
    throw (.realTooShort total exponentWidth)
  let exponent ← Integer.read true (fields.take exponentWidth)
  let mantissa ← Integer.read false (fields.drop exponentWidth)
  assemble negative exponent.toInt mantissa.toInt.toNat

/-- The binary form: the low two bits of the first octet tell the width of the exponent, or that
an octet with the width follows. -/
def decodeBinary (first : UInt8) (rest : Octets) : Except Defect Binary64 :=
  let negative : Bool := first.toNat / 64 % 2 = 1
  let total := rest.length + 1
  if first.toNat / 4 % 16 ≠ 0 then .error (.realScaled first)
  else if first.toNat % 4 = 3 then
    match rest with
    | [] => .error .realExponentLengthMissing
    | exponentWidth :: fields =>
      if exponentWidth = 0 then .error .realExponentEmpty
      else decodeFields negative total exponentWidth.toNat fields
  else decodeFields negative total (first.toNat % 4 + 1) rest

/-- REAL contents. No octets are zero. A special octet decides the value by itself: octets behind
it are not looked at. -/
def decode : Octets → Except Defect Binary64
  | [] => .ok .zero
  | first :: rest =>
    if first = plusInfinity then .ok (.infinity false)
    else if first = minusInfinity then .ok (.infinity true)
    else if first = notANumber then .ok .nan
    else if first = zeroOctet then .ok .zero
    else if first < 128 then .error (.realNotBinary first)
    else decodeBinary first rest

end BasicEncoding.Real
