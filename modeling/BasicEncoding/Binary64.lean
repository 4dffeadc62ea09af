import BasicEncoding.Powers

/-! Binary floating point of 64 bits (IEEE 754), by its bits: a sign, 11 exponent bits and 52
fraction bits. Nothing here rounds; all arithmetic is on the fields as natural numbers. -/
namespace BasicEncoding

/-- A floating point number as a word. Equality of words tells the two zeros apart, and NaNs by
their payload; `sameNumber` does not. -/
structure Binary64 where
  bits : UInt64
  deriving DecidableEq, Repr

namespace Binary64

def fractionBits : Nat := 52

def exponentBias : Int := 1023

/-- The exponent, bias taken off, that is kept for infinities and NaNs. -/
def specialExponent : Int := exponentBias + 1

/-- The exponent of the lowest bit of a subnormal number. -/
def subnormalExponent : Int := 1 - exponentBias - fractionBits

def signMask : Int64 := -0x8000000000000000

def exponentMask : Int64 := 0x7FF0000000000000

def fractionMask : Int64 := 0x000FFFFFFFFFFFFF

/-- The leading one of a normal significand, which is not stored. -/
def leadingOne : Int64 := 0x0010000000000000

def ofFields (negative : Bool) (field fraction : Nat) : Binary64 :=
  ⟨UInt64.ofNat ((if negative then 2 ^ 63 else 0) + field * 2 ^ 52 + fraction)⟩

def isNegative (x : Binary64) : Bool :=
  2 ^ 63 ≤ x.bits.toNat

/-- The 11 exponent bits as stored. -/
def field (x : Binary64) : Nat :=
  x.bits.toNat / 2 ^ 52 % 2 ^ 11

/-- The 52 stored bits of the significand. -/
def fraction (x : Binary64) : Nat :=
  x.bits.toNat % 2 ^ 52

def isNaN (x : Binary64) : Bool :=
  x.field = 2047 ∧ x.fraction ≠ 0

def isInfinite (x : Binary64) : Bool :=
  x.field = 2047 ∧ x.fraction = 0

def isFinite (x : Binary64) : Bool :=
  x.field ≠ 2047

def isZero (x : Binary64) : Bool :=
  x.field = 0 ∧ x.fraction = 0

def isSubnormal (x : Binary64) : Bool :=
  x.field = 0 ∧ x.fraction ≠ 0

def isNormal (x : Binary64) : Bool :=
  x.field ≠ 0 ∧ x.field ≠ 2047

def significand (x : Binary64) : Nat :=
  if x.field = 0 then x.fraction else 2 ^ 52 + x.fraction

/-- The exponent of the lowest bit of the significand: a finite number is its significand times
two to this power. -/
def scale (x : Binary64) : Int :=
  if x.field = 0 then subnormalExponent else x.field - exponentBias - fractionBits

/-- The exponent of the highest set bit of a nonzero finite number. -/
def exponent (x : Binary64) : Int :=
  x.significand.log2 + x.scale

def zero : Binary64 := ofFields false 0 0

def infinity (negative : Bool) : Binary64 := ofFields negative 2047 0

def nan : Binary64 := ofFields false 2047 (2 ^ 51)

/-- Equality of numbers: NaN equals nothing, and the zeros equal each other. -/
def sameNumber (x y : Binary64) : Bool :=
  !x.isNaN && !y.isNaN && (x == y || x.isZero && y.isZero)

theorem toNat_bits_ofFields {negative : Bool} {field fraction : Nat} (hf : field < 2 ^ 11)
    (hr : fraction < 2 ^ 52) :
    (ofFields negative field fraction).bits.toNat =
      (if negative then 2 ^ 63 else 0) + field * 2 ^ 52 + fraction := by
  rw [ofFields, UInt64.toNat_ofNat']
  apply Nat.mod_eq_of_lt
  cases negative <;> simp <;> omega

theorem isNegative_ofFields {negative : Bool} {field fraction : Nat} (hf : field < 2 ^ 11)
    (hr : fraction < 2 ^ 52) : (ofFields negative field fraction).isNegative = negative := by
  rw [isNegative, toNat_bits_ofFields hf hr]
  cases negative <;> simp <;> omega

theorem field_ofFields {negative : Bool} {field fraction : Nat} (hf : field < 2 ^ 11)
    (hr : fraction < 2 ^ 52) : (ofFields negative field fraction).field = field := by
  rw [Binary64.field, toNat_bits_ofFields hf hr]
  cases negative <;> simp <;> omega

theorem fraction_ofFields {negative : Bool} {field fraction : Nat} (hf : field < 2 ^ 11)
    (hr : fraction < 2 ^ 52) : (ofFields negative field fraction).fraction = fraction := by
  rw [Binary64.fraction, toNat_bits_ofFields hf hr]
  cases negative <;> simp <;> omega

theorem field_lt (x : Binary64) : x.field < 2 ^ 11 := Nat.mod_lt _ (by decide)

theorem fraction_lt (x : Binary64) : x.fraction < 2 ^ 52 := Nat.mod_lt _ (by decide)

@[simp] theorem ofFields_fields (x : Binary64) :
    ofFields x.isNegative x.field x.fraction = x := by
  have hbits : (ofFields x.isNegative x.field x.fraction).bits.toNat = x.bits.toNat := by
    rw [toNat_bits_ofFields x.field_lt x.fraction_lt]
    have hx := x.bits.toNat_lt
    unfold isNegative Binary64.field Binary64.fraction
    split
    · next h =>
      have hsign := of_decide_eq_true h
      omega
    · next h =>
      have hsign : ¬2 ^ 63 ≤ x.bits.toNat := fun hle => h (decide_eq_true hle)
      omega
  cases x
  exact congrArg Binary64.mk (UInt64.toNat_inj.mp hbits)

end Binary64

end BasicEncoding
