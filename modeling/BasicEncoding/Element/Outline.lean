import BasicEncoding.Decimal.Shortest
import BasicEncoding.Element
import BasicEncoding.ObjectIdentifier.Dotted
import BasicEncoding.Text.Quoted
import BasicEncoding.Value.Content

/-! Outlines: an element and everything below it as indented lines, with the text of the values. -/
namespace BasicEncoding.Value

/-- Octets are shown as quoted text where they are text, and as hexadecimal digits otherwise. -/
def text : Value → String
  | .nothing => "NONE"
  | .boolean b => toString b
  | .integer n => toString n.toInt
  | .octets os =>
    match Text.Utf8.decode os with
    | .ok characters => Text.Quoted.encode characters
    | .error _ => Text.Hex.octets os
  | .real x => x.text
  | .oid o => o.text

end BasicEncoding.Value

namespace BasicEncoding.Element

def indentWidth : Nat := 2

def tagText (identifier : Identifier) : String :=
  if identifier.tagClass = .universal then
    (Universal.name? identifier.number).getD (toString identifier.number.toNat)
  else toString identifier.number.toNat

def outlineHead (identifier : Identifier) (label : String) (depth : Nat) : String :=
  String.ofList (List.replicate (depth * indentWidth) ' ') ++ label ++ "(" ++
    identifier.tagClass.name ++ ", " ++
    (if identifier.constructed then "Constructed" else "Primitive") ++ ", " ++
    tagText identifier ++ ")"

mutual

/-- The lines of an element at a depth: a count of children and their lines, or the length of the
contents and the value. -/
def outlineFrom (depth : Nat) : Element → String
  | ⟨identifier, value, children, _, _, label⟩ =>
    if identifier.constructed then
      outlineHead identifier label depth ++ " Children=" ++ toString children.length ++ "\n" ++
        outlineAll (depth + 1) children
    else
      outlineHead identifier label depth ++ " Len=" ++ toString value.encode.length ++ " " ++
        value.text ++ "\n"

def outlineAll (depth : Nat) : List Element → String
  | [] => ""
  | e :: es => outlineFrom depth e ++ outlineAll depth es

end

/-- The outline of an element. Measuring its contents encodes them, so the notes of an outline are
those of writing. -/
def outline (e : Element) : String :=
  outlineFrom 0 e

end BasicEncoding.Element
