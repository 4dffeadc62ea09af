import BasicEncoding.Length
import BasicEncoding.Value

/-! Elements: one data value each, with its identifier and either a value or children. Label, octet
cache and framing are annotations. The type itself admits a value on a constructed element and
children on a primitive one, because the data form does; the constructors here do not produce
either. -/
namespace BasicEncoding

structure Element where
  identifier : Identifier
  value : Value
  children : List Element
  framing : Framing
  raw : Option Octets
  label : String

namespace Element

/-- A constructed element carries no value, and a universal primitive the kind of its tag. Other
tags are defined elsewhere and carry anything. -/
def check (identifier : Identifier) (value : Value) : Except Failure Unit :=
  if identifier.constructed then
    if value.isNothing then .ok () else .error (.invalidData (.valueOnConstructed value.kind))
  else if identifier.tagClass = .universal ∧ value.kind ≠ Universal.kind identifier.number then
    .error (.typeMismatch (Universal.kind identifier.number) value.kind)
  else .ok ()

def bare (identifier : Identifier) (value : Value) (label : String) : Element :=
  { identifier, value, children := [], framing := .definite, raw := none, label }

def new (identifier : Identifier) (value : Value) (label : String) : Except Failure Element := do
  check identifier value
  return bare identifier value label

def primitive (tagClass : TagClass) (tag : UInt32) (value : Value) (label : String) :
    Except Failure Element :=
  new ⟨tagClass, false, tag⟩ value label

def constructed (tagClass : TagClass) (tag : UInt32) (label : String) : Element :=
  bare ⟨tagClass, true, tag⟩ .nothing label

def boolean (value : Bool) (label : String) : Element :=
  bare (.universal false Universal.boolean) (.boolean value) label

def integer (value : Int64) (label : String) : Element :=
  bare (.universal false Universal.integer) (.integer value) label

def enumerated (value : Int64) (label : String) : Element :=
  bare (.universal false Universal.enumerated) (.integer value) label

def octetString (value : Octets) (label : String) : Element :=
  bare (.universal false Universal.octetString) (.octets value) label

def string (value : String) (label : String) : Element :=
  bare (.universal false Universal.octetString) (.ofText value) label

def real (value : Binary64) (label : String) : Element :=
  bare (.universal false Universal.real) (.real value) label

def null (label : String) : Element :=
  bare (.universal false Universal.null) .nothing label

def oid (value : ObjectIdentifier) (label : String) : Element :=
  bare (.universal false Universal.objectIdentifier) (.oid value) label

def sequence (label : String) : Element :=
  constructed .universal Universal.sequence label

def set (label : String) : Element :=
  constructed .universal Universal.set label

/-- A constructed element with children, whatever form the identifier has. -/
def ofChildren (identifier : Identifier) (framing : Framing) (children : List Element) : Element :=
  { constructed identifier.tagClass identifier.number "" with framing, children }

/-- The framing is kept on a primitive element too, and has no effect there. -/
def withFraming (e : Element) (framing : Framing) : Element :=
  { e with framing }

def withLabel (e : Element) (label : String) : Element :=
  { e with label }

def withRaw (e : Element) (raw : Octets) : Element :=
  { e with raw := some raw }

def usedFraming (e : Element) : Framing :=
  if e.identifier.constructed then e.framing else .definite

def append (e child : Element) : Except Failure Element :=
  if e.identifier.constructed then .ok { e with children := e.children ++ [child] }
  else .error .notConstructed

def children? (e : Element) : Except Failure (List Element) :=
  if e.identifier.constructed then .ok e.children else .error .notConstructed

mutual

/-- Equality of identifiers, values and children, throughout the tree. Annotations do not count. -/
def same : Element → Element → Bool
  | ⟨i, v, cs, _, _, _⟩, ⟨j, w, ds, _, _, _⟩ => i = j && v.same w && sameAll cs ds

def sameAll : List Element → List Element → Bool
  | [], [] => true
  | c :: cs, d :: ds => same c d && sameAll cs ds
  | _, _ => false

end

instance : BEq Element := ⟨same⟩

theorem check_eq_ok_iff {i : Identifier} {v : Value} :
    check i v = .ok () ↔
      if i.constructed then v = .nothing
      else i.tagClass = .universal → v.kind = Universal.kind i.number := by
  unfold check
  split
  · next hc =>
    cases v <;> simp [Value.isNothing, Value.kind]
  · next hc =>
    split
    · next h => exact ⟨nofun, fun hk => absurd (hk h.1) h.2⟩
    · next h => exact ⟨fun _ hu => Decidable.byContradiction fun hk => h ⟨hu, hk⟩, fun _ => rfl⟩

end Element

end BasicEncoding
