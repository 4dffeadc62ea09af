import BasicEncoding.ObjectIdentifier

/-! The dotted text of an object identifier: two or more runs of ASCII digits with single dots
between them. Leading zeros are read and not written. -/
namespace BasicEncoding.ObjectIdentifier

def text (o : ObjectIdentifier) : String :=
  ".".intercalate (o.arcs.map fun arc => toString arc.toNat)

/-- The parts between dots; there is always at least one. -/
def dottedParts : List Char → List (List Char)
  | [] => [[]]
  | c :: rest =>
    if c = '.' then [] :: dottedParts rest
    else
      match dottedParts rest with
      | [] => [[c]]
      | part :: parts => (c :: part) :: parts

def decimalValue (digits : List Char) : Nat :=
  digits.foldl (fun value c => value * 10 + (c.toNat - '0'.toNat)) 0

def isRun (part : List Char) : Bool :=
  !part.isEmpty && part.all Char.isDigit

def readArc (part : List Char) : Except Defect UInt64 :=
  let value := decimalValue part
  if 2 ^ 64 ≤ value then .error (.dottedArc (String.ofList part)) else .ok (UInt64.ofNat value)

def readArcs : List (List Char) → Except Defect (List UInt64)
  | [] => .ok []
  | part :: parts => do
    let arc ← readArc part
    let arcs ← readArcs parts
    return arc :: arcs

/-- The identifier that a text spells. The form of the whole text is settled before any arc. -/
def ofText (text : String) : Except Defect ObjectIdentifier :=
  let parts := dottedParts text.toList
  if 2 ≤ parts.length ∧ parts.all isRun then readArcs parts >>= ofArcs
  else .error (.dottedForm text)

theorem dottedParts_ne_nil (text : List Char) : dottedParts text ≠ [] := by
  cases text with
  | nil => exact List.cons_ne_nil _ _
  | cons c rest =>
      unfold dottedParts
      split
      · exact List.cons_ne_nil _ _
      · split <;> exact List.cons_ne_nil _ _

end BasicEncoding.ObjectIdentifier
