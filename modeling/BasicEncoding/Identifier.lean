import BasicEncoding.Base128

/-! Identifier octets: tag class, the constructed bit and the tag number. Numbers up to 30 share the
first octet; larger ones follow it as a base-128 chain. -/
namespace BasicEncoding

/-- The four tag classes, in the order of their two bits. -/
inductive TagClass where
  | universal
  | application
  | contextSpecific
  | privateUse
  deriving DecidableEq, Repr

namespace TagClass

def index : TagClass → Nat
  | .universal => 0
  | .application => 1
  | .contextSpecific => 2
  | .privateUse => 3

/-- The class in bits 8 and 7 of an octet; the other bits do not matter. -/
def ofOctet (octet : UInt8) : TagClass :=
  match octet.toNat / 64 with
  | 0 => .universal
  | 1 => .application
  | 2 => .contextSpecific
  | _ => .privateUse

def bits (c : TagClass) : UInt8 :=
  UInt8.ofNat (c.index * 64)

def word : TagClass → String
  | .universal => "Universal"
  | .application => "Application"
  | .contextSpecific => "ContextSpecific"
  | .privateUse => "Private"

def name : TagClass → String
  | .universal => "Universal"
  | .application => "Application"
  | .contextSpecific => "Context"
  | .privateUse => "Private"

@[simp] theorem ofOctet_bits (c : TagClass) : ofOctet c.bits = c := by
  cases c <;> rfl

end TagClass

structure Identifier where
  tagClass : TagClass
  constructed : Bool
  number : UInt32
  deriving DecidableEq, Repr

namespace Identifier

def maxShortNumber : UInt32 := 30

/-- The low five bits that announce a chain. -/
def chainMarker : Nat := 31

def universal (constructed : Bool) (number : UInt32) : Identifier :=
  ⟨.universal, constructed, number⟩

def contextSpecific (constructed : Bool) (number : UInt32) : Identifier :=
  ⟨.contextSpecific, constructed, number⟩

def lead (i : Identifier) : Nat :=
  i.tagClass.index * 64 + if i.constructed then 32 else 0

def encode (i : Identifier) : Octets :=
  if i.number ≤ maxShortNumber then
    [UInt8.ofNat (i.lead + i.number.toNat)]
  else
    UInt8.ofNat (i.lead + chainMarker) :: Base128.chain i.number.toNat

def describe (i : Identifier) : String :=
  "Identifier \x7b class: " ++ i.tagClass.word ++ ", constructed: " ++ toString i.constructed ++
    ", number: " ++ toString i.number.toNat ++ " \x7d"

theorem encode_ne_nil (i : Identifier) : i.encode ≠ [] := by
  unfold encode
  split <;> simp

end Identifier

end BasicEncoding
