import BasicEncoding.Octets

/-! Length octets. A definite length is written in the short form below 128 and in the long form
from there on; the single octet `0x80` leaves the length open until an end-of-contents marker. -/
namespace BasicEncoding

inductive Length where
  | definite (count : UInt64)
  | indefinite
  deriving DecidableEq, Repr

namespace Length

def openOctet : UInt8 := 0x80

/-- The most octets that a long form may have here: lengths are 64-bit numbers. -/
def maxOctets : Nat := 8

def octetCount (count : UInt64) : Nat :=
  count.toNat.log2 / 8 + 1

def encode : Length → Octets
  | .indefinite => [openOctet]
  | .definite count =>
    if count < 128 then
      [UInt8.ofNat count.toNat]
    else
      UInt8.ofNat (128 + octetCount count) :: lowOctets count.toNat (octetCount count)

def count? : Length → Option UInt64
  | .definite count => some count
  | .indefinite => none

def describe : Length → String
  | .definite count => "Definite(" ++ toString count.toNat ++ ")"
  | .indefinite => "Indefinite"

theorem encode_ne_nil (l : Length) : l.encode ≠ [] := by
  cases l with
  | indefinite => exact List.cons_ne_nil _ _
  | definite count =>
      show (if count < 128 then _ else _) ≠ []
      split
      · exact List.cons_ne_nil _ _
      · exact List.cons_ne_nil _ _

end Length

/-- How the contents of a constructed element are closed off. -/
inductive Framing where
  | definite
  | indefinite
  deriving DecidableEq, Repr

def Framing.word : Framing → String
  | .definite => "Definite"
  | .indefinite => "Indefinite"

def endOfContents : Octets := [0, 0]

end BasicEncoding
