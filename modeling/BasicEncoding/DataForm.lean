import BasicEncoding.Decimal.Nearest
import BasicEncoding.Element

/-! The data form of elements: plain records, lists, numbers and texts. Reading it checks shapes and
ranges and the rules of object identifiers, and no rule of elements: a record may pair any value
with any tag and put children on a primitive element. -/
namespace BasicEncoding

/-- Plain data. A decimal number is kept as the nearest floating point number; it is never taken
for an integer. -/
inductive Datum where
  | null
  | boolean (value : Bool)
  | integer (value : Int)
  | decimal (value : Binary64)
  | text (value : String)
  | list (items : List Datum)
  | record (fields : List (String × Datum))

namespace Datum

/-- A number as written: integers that a signed or unsigned word holds stay integers. -/
def ofNumeral (negative : Bool) (digits : Nat) (exponent : Int) (integral : Bool) : Datum :=
  let value : Int := if negative then -digits else digits
  if integral ∧ ¬(negative ∧ digits = 0) ∧ -(2 ^ 63) ≤ value ∧ value < 2 ^ 64 then .integer value
  else .decimal (Decimal.toBinary64 negative digits exponent)

def field? : Datum → String → Option Datum
  | .record fields, name => fields.lookup name
  | _, _ => none

def integerIn? (low high : Int) : Datum → Option Int
  | .integer n => if low ≤ n ∧ n < high then some n else none
  | _ => none

def boolean? : Datum → Option Bool
  | .boolean b => some b
  | _ => none

def text? : Datum → Option String
  | .text t => some t
  | _ => none

def list? : Datum → Option (List Datum)
  | .list items => some items
  | _ => none

def octets? : Datum → Option Octets
  | .list items => (items.mapM (integerIn? 0 256)).map fun ns => ns.map fun n => UInt8.ofNat n.toNat
  | .text t => some (Text.Utf8.encode t)
  | _ => none

def octetsOrNull? : Datum → Option (Option Octets)
  | .null => some none
  | d => d.octets?.map some

/-- A name on its own, or as the only field of a record with nothing in it. -/
def name? : Datum → Option String
  | .text t => some t
  | .record [(name, .null)] => some name
  | _ => none

def ofOctets (octets : Octets) : Datum :=
  .list (octets.map fun o => .integer o.toNat)

end Datum

def TagClass.all : List TagClass :=
  [.universal, .application, .contextSpecific, .privateUse]

def TagClass.ofDatum? (d : Datum) : Option TagClass := do
  let name ← d.name?
  TagClass.all.find? fun c => c.word = name

def TagClass.toDatum (c : TagClass) : Datum :=
  .text c.word

def Framing.ofDatum? (d : Datum) : Option Framing := do
  let name ← d.name?
  [Framing.definite, .indefinite].find? fun f => f.word = name

def Framing.toDatum (f : Framing) : Datum :=
  .text f.word

def ObjectIdentifier.toDatum (o : ObjectIdentifier) : Datum :=
  .list (o.arcs.map fun arc => .integer arc.toNat)

def ObjectIdentifier.ofDatum? (d : Datum) : Option ObjectIdentifier := do
  let items ← d.list?
  let arcs ← items.mapM (Datum.integerIn? 0 (2 ^ 64))
  (ObjectIdentifier.ofArcs (arcs.map fun n => UInt64.ofNat n.toNat)).toOption

def Binary64.ofDatum? : Datum → Option Binary64
  | .integer n => some (Decimal.toBinary64 (n < 0) n.natAbs 0)
  | .decimal x => some x
  | _ => none

namespace Value

def toDatum : Value → Datum
  | .nothing => .text "None"
  | .boolean b => .record [("Boolean", .boolean b)]
  | .integer n => .record [("Integer", .integer n.toInt)]
  | .octets os => .record [("Bytes", .ofOctets os)]
  | .real x => .record [("Float", .decimal x)]
  | .oid o => .record [("Oid", o.toDatum)]

def ofDatum? (d : Datum) : Option Value :=
  match d with
  | .record [("Boolean", v)] => v.boolean?.map .boolean
  | .record [("Integer", v)] =>
    (v.integerIn? (-(2 ^ 63)) (2 ^ 63)).map fun n => .integer (Int64.ofInt n)
  | .record [("Bytes", v)] => v.octets?.map .octets
  | .record [("Float", v)] => (Binary64.ofDatum? v).map .real
  | .record [("Oid", v)] => (ObjectIdentifier.ofDatum? v).map .oid
  | d => if d.name? = some "None" then some .nothing else none

end Value

namespace Element

def fieldNames : List String :=
  ["class", "constructed", "tag", "value", "children", "length_form", "raw_bytes", "label"]

mutual

def toDatum : Element → Datum
  | ⟨identifier, value, children, framing, raw, label⟩ =>
    let cache := raw.toList.map fun octets => ("raw_bytes", Datum.ofOctets octets)
    .record ([("class", identifier.tagClass.toDatum),
      ("constructed", .boolean identifier.constructed),
      ("tag", .integer identifier.number.toNat), ("value", value.toDatum),
      ("children", .list (toData children)), ("length_form", framing.toDatum)] ++ cache ++
      [("label", .text label)])

def toData : List Element → List Datum
  | [] => []
  | e :: es => e.toDatum :: toData es

end

def ofFields? (tagClass constructed tag value framing label : Datum) (raw : Option Datum)
    (children : Option (List Element)) : Option Element := do
  let identifier : Identifier :=
    ⟨← TagClass.ofDatum? tagClass, ← constructed.boolean?,
      UInt32.ofNat (← tag.integerIn? 0 (2 ^ 32)).toNat⟩
  return { identifier, value := ← Value.ofDatum? value, children := ← children,
           framing := ← Framing.ofDatum? framing,
           raw := ← (raw.getD .null).octetsOrNull?, label := ← label.text? }

mutual

/-- An element from a record, whose other fields do not matter, or from the list of all its fields
in order. -/
def ofDatum? : Datum → Option Element
  | .record fields => do
    let field (name : String) := fields.lookup name
    ofFields? (← field "class") (← field "constructed") (← field "tag") (← field "value")
      (← field "length_form") (← field "label") (field "raw_bytes") (childrenField? fields)
  | .list [tagClass, constructed, tag, value, .list children, framing, raw, label] =>
    ofFields? tagClass constructed tag value framing label (some raw) (ofData? children)
  | _ => none

def childrenField? : List (String × Datum) → Option (List Element)
  | [] => none
  | (name, .list items) :: rest => if name = "children" then ofData? items else childrenField? rest
  | (name, _) :: rest => if name = "children" then none else childrenField? rest

def ofData? : List Datum → Option (List Element)
  | [] => some []
  | d :: ds => do
    let e ← ofDatum? d
    let es ← ofData? ds
    return e :: es

end

end Element

end BasicEncoding
