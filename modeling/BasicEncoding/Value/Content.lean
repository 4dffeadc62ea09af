import BasicEncoding.Note
import BasicEncoding.ObjectIdentifier.Content
import BasicEncoding.Real
import BasicEncoding.Value

/-! Content octets of primitive values. Writing goes by the kind of the value; reading goes by the
identifier, since contents do not tell their kind. -/
namespace BasicEncoding

namespace Boolean

/-- One octet; any nonzero octet is read as true. -/
def encode (b : Bool) : Octets :=
  [if b then 0xFF else 0x00]

def decode : Octets → Except Defect Bool
  | [octet] => .ok (octet ≠ 0)
  | content => .error (.booleanWidth content.length)

end Boolean

namespace Value

def encode : Value → Octets
  | .nothing => []
  | .boolean b => Boolean.encode b
  | .integer n => Integer.encode n
  | .octets os => os
  | .real x => Real.encode x
  | .oid o => o.encode

def notes : Value → List Note
  | .real x => if x.isSubnormal then [.subnormal x] else []
  | _ => []

/-- Content octets read as a value of a kind. The tag only serves the wording of a defect. -/
def ofContent (tag : UInt32) (content : Octets) : ValueKind → Except Defect Value
  | .nothing =>
    if content.isEmpty then .ok .nothing else .error (.contentNotEmpty tag content.length)
  | .boolean => (Boolean.decode content).map .boolean
  | .integer => (Integer.decode content).map .integer
  | .real => (Real.decode content).map .real
  | .oid => (ObjectIdentifier.decode content).map .oid
  | .octets => .ok (.octets content)

/-- The value of a primitive with an identifier. Only universal tags have a typed reading, and the
constructed bit does not matter here. -/
def decode (identifier : Identifier) (content : Octets) : Except Defect Value :=
  if identifier.tagClass = .universal then
    ofContent identifier.number content (Universal.kind identifier.number)
  else .ok (.octets content)

end Value

end BasicEncoding
