import BasicEncoding.Failure
import BasicEncoding.Length

/-! Integer fields: two's complement, most significant octet first, with no octet that only repeats
the sign. INTEGER and ENUMERATED contents and both numbers of a REAL have this form. The width of a
field is given by its start shift, the place of its most significant octet in bits. -/
namespace BasicEncoding.Integer

def octetBits : Nat := 8

def wordBits : Nat := 64

def topShift : Nat := wordBits - octetBits

def allBits : Int64 := -1

/-- The octet that sign extension puts in front. -/
def filler (v : Int) : UInt8 :=
  if v < 0 then 0xFF else 0x00

/-- The highest octet at or below place `n` that is not the filler; place 0 where there is none. -/
def topPlace (v : Int) : Nat → Nat
  | 0 => 0
  | n + 1 => if octetAt v (n + 1) = filler v then topPlace v n else n + 1

/-- The least start shift at which `v` can be written. A signed field takes one octet more where
its top bit would show the wrong sign. -/
def startShift (v : Int64) (signed : Bool) : Nat :=
  let place := topPlace v.toInt (topShift / octetBits)
  let topBit := 128 ≤ (octetAt v.toInt place).toNat
  octetBits * if signed = true ∧ (topBit ↔ 0 ≤ v.toInt) then place + 1 else place

def width (shift : Nat) : Nat :=
  shift / octetBits + 1

/-- The octets of `v` from a shift down. A shift between octets drops the bits below it. -/
def octetsFrom (v : Int64) (shift : Nat) : Octets :=
  lowOctets (v.toInt / 2 ^ (shift % octetBits)) (width shift)

def encode (v : Int64) : Octets :=
  octetsFrom v (startShift v true)

/-- A word takes another octet only where its top nine bits are all its sign, that is within
this distance of zero. -/
def shiftBound : Int64 := 0x80000000000000

/-- Shifts octets into a word, for a field of the given width. -/
def accumulate (octets : Nat) (word : Int64) : Octets → Except Defect Int64
  | [] => .ok word
  | octet :: rest =>
    if word < -shiftBound ∨ shiftBound ≤ word then .error (.integerTooWide octets)
    else accumulate octets (word * 256 + Int64.ofNat octet.toNat) rest

/-- The word that a field spells, with or without a sign. Wide fields are read as long as their
leading octets carry nothing. -/
def read (signed : Bool) : Octets → Except Defect Int64
  | [] => .error .fieldEmpty
  | first :: rest =>
    let word := Int64.ofNat first.toNat
    accumulate (rest.length + 1) (if signed = true ∧ 128 ≤ first then word - 256 else word) rest

def decode (content : Octets) : Except Defect Int64 :=
  if content.isEmpty then .error .integerEmpty else read true content

end BasicEncoding.Integer
