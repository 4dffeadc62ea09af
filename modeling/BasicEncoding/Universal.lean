/-! Universal tag numbers, their names, and the kind of value that each carries when primitive. -/
namespace BasicEncoding

inductive ValueKind where
  | nothing
  | boolean
  | integer
  | octets
  | real
  | oid
  deriving DecidableEq, Repr

def ValueKind.name : ValueKind → String
  | .nothing => "none"
  | .boolean => "boolean"
  | .integer => "integer"
  | .octets => "bytes"
  | .real => "float"
  | .oid => "object identifier"

namespace Universal

def endOfContents : UInt32 := 0
def boolean : UInt32 := 1
def integer : UInt32 := 2
def octetString : UInt32 := 4
def null : UInt32 := 5
def objectIdentifier : UInt32 := 6
def real : UInt32 := 9
def enumerated : UInt32 := 10
def sequence : UInt32 := 16
def set : UInt32 := 17

/-- Names in the order of their numbers, from 0. The two gaps are numbers without a name here. -/
def names : List (Option String) :=
  [some "EOC (End-of-Content)", some "Boolean", some "Integer", some "Bit String",
    some "Octet String", some "NULL", some "Object Identifier", some "Object Descriptor",
    some "External", some "Real", some "Enumerated", some "Embedded PDV", some "UTF8 String",
    some "Relative-OID", none, none, some "Sequence and Sequence of", some "Set and Set OF",
    some "Numeric String", some "Printable String", some "T61 String", some "Videotex String",
    some "IA5 String", some "UTC Time", some "Generalized Time", some "Graphic String",
    some "Visible String", some "General String", some "Universal String",
    some "Character String", some "BMP String"]

def name? (number : UInt32) : Option String :=
  names.getD number.toNat none

/-- The kind that a universal primitive carries. Numbers without a typed reading carry octets. -/
def kind (number : UInt32) : ValueKind :=
  if number = endOfContents ∨ number = null then .nothing
  else if number = boolean then .boolean
  else if number = integer ∨ number = enumerated then .integer
  else if number = real then .real
  else if number = objectIdentifier then .oid
  else .octets

end Universal

end BasicEncoding
