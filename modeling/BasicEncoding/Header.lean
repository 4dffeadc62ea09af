import BasicEncoding.Failure
import BasicEncoding.Length

/-! Headers: identifier and length octets together, written whole and read an octet at a time. A
reader that stops between two octets loses nothing, and no octet behind the header is looked at. -/
namespace BasicEncoding

structure Header where
  identifier : Identifier
  length : Length
  deriving DecidableEq, Repr

namespace Header

def encode (h : Header) : Octets :=
  h.identifier.encode ++ h.length.encode

def describe (h : Header) : String :=
  "Header \x7b identifier: " ++ h.identifier.describe ++ ", length: " ++ h.length.describe ++
    " \x7d"

end Header

inductive HeaderStage where
  | identifier
  | tagNumber
  | lengthStart
  | lengthOctets (remaining : Nat)
  deriving DecidableEq, Repr

def HeaderStage.text : HeaderStage → String
  | .identifier => "identifier octet"
  | .tagNumber => "high tag number"
  | .lengthStart => "length octet"
  | .lengthOctets _ => "long form length"

/-- A header that is being read. Numbers grow as their octets arrive and are bounded before each
step, never after it; `seen` holds every octet pushed, latest first. -/
structure HeaderScan where
  stage : HeaderStage := .identifier
  tagClass : TagClass := .universal
  constructed : Bool := false
  number : Nat := 0
  length : Nat := 0
  seen : Octets := []
  deriving DecidableEq, Repr

namespace HeaderScan

def start : HeaderScan := {}

def octets (s : HeaderScan) : Octets :=
  s.seen.reverse

def isFresh (s : HeaderScan) : Bool :=
  s.seen.isEmpty

def header (s : HeaderScan) (length : Length) : Header :=
  ⟨⟨s.tagClass, s.constructed, UInt32.ofNat s.number⟩, length⟩

/-- A tag number takes another group only below this bound, so it stays below `2 ^ 32`. -/
def numberBound : Nat := 2 ^ 25

/-- A length takes another octet only below this bound, so it stays below `2 ^ 64`. -/
def lengthBound : Nat := 2 ^ 56

def pushIdentifier (s : HeaderScan) (octet : UInt8) : HeaderScan :=
  let s := { s with
    tagClass := .ofOctet octet
    constructed := octet.toNat / 32 % 2 = 1 }
  let low := octet.toNat % 32
  if low = Identifier.chainMarker then { s with stage := .tagNumber }
  else { s with number := low, stage := .lengthStart }

def pushTagNumber (s : HeaderScan) (octet : UInt8) : Except Defect HeaderScan :=
  if numberBound ≤ s.number then .error .tagNumberTooLarge
  else
    let s := { s with number := s.number * 128 + octet.toNat % 128 }
    .ok (if octet < 128 then { s with stage := .lengthStart } else s)

/-- The first length octet: a length, or the count of the length octets to come. -/
def pushLengthStart (s : HeaderScan) (octet : UInt8) :
    Except Defect (Option Length × HeaderScan) :=
  let count := octet.toNat % 128
  if octet < 128 then .ok (some (.definite (UInt64.ofNat octet.toNat)), s)
  else if count = 0 then
    if s.constructed then .ok (some .indefinite, s) else .error .indefinitePrimitive
  else if count = 127 then .error .reservedLength
  else if Length.maxOctets < count then .error (.lengthTooWide count)
  else .ok (none, { s with stage := .lengthOctets count })

/-- One octet of a long form length. After the last one the scan stays where it is. -/
def pushLengthOctet (s : HeaderScan) (remaining : Nat) (octet : UInt8) :
    Except Defect (Option Length × HeaderScan) :=
  if lengthBound ≤ s.length then .error .lengthOverflow
  else
    let s := { s with length := s.length * 256 + octet.toNat }
    if remaining = 1 then .ok (some (.definite (UInt64.ofNat s.length)), s)
    else .ok (none, { s with stage := .lengthOctets (remaining - 1) })

/-- One octet: a header where it is complete, nothing where more octets are needed. The octet is
remembered either way, and a defect leaves the rest of the scan as it was. -/
def push (s : HeaderScan) (octet : UInt8) : Except Defect (Option Header) × HeaderScan :=
  let s := { s with seen := octet :: s.seen }
  match s.stage with
  | .identifier => (.ok none, s.pushIdentifier octet)
  | .tagNumber =>
    match s.pushTagNumber octet with
    | .ok s => (.ok none, s)
    | .error defect => (.error defect, s)
  | .lengthStart => finish s (s.pushLengthStart octet)
  | .lengthOctets remaining => finish s (s.pushLengthOctet remaining octet)
where
  finish (before : HeaderScan) :
      Except Defect (Option Length × HeaderScan) → Except Defect (Option Header) × HeaderScan
    | .ok (length, s) => (.ok (length.map s.header), s)
    | .error defect => (.error defect, before)

@[simp] theorem seen_pushIdentifier (s : HeaderScan) (octet : UInt8) :
    (s.pushIdentifier octet).seen = s.seen := by
  unfold pushIdentifier
  dsimp only
  split <;> rfl

theorem seen_pushTagNumber {s t : HeaderScan} {octet : UInt8}
    (h : s.pushTagNumber octet = .ok t) : t.seen = s.seen := by
  unfold pushTagNumber at h
  split at h
  · cases h
  · dsimp only at h
    cases h
    split <;> rfl

theorem seen_pushLengthStart {s t : HeaderScan} {octet : UInt8} {length : Option Length}
    (h : s.pushLengthStart octet = .ok (length, t)) : t.seen = s.seen := by
  unfold pushLengthStart at h
  dsimp only at h
  repeat' split at h
  all_goals cases h
  all_goals rfl

theorem seen_pushLengthOctet {s t : HeaderScan} {remaining : Nat} {octet : UInt8}
    {length : Option Length} (h : s.pushLengthOctet remaining octet = .ok (length, t)) :
    t.seen = s.seen := by
  unfold pushLengthOctet at h
  dsimp only at h
  repeat' split at h
  all_goals cases h
  all_goals rfl

@[simp] theorem octets_push (s : HeaderScan) (octet : UInt8) :
    (s.push octet).2.octets = s.octets ++ [octet] := by
  have key : (s.push octet).2.seen = octet :: s.seen := by
    unfold push
    dsimp only
    split
    · exact seen_pushIdentifier _ _
    · split
      · next h => exact seen_pushTagNumber h
      · rfl
    · unfold push.finish
      split
      · next h => exact seen_pushLengthStart h
      · rfl
    · unfold push.finish
      split
      · next h => exact seen_pushLengthOctet h
      · rfl
  rw [octets, key, List.reverse_cons, octets]

end HeaderScan

/-- Where octets ran out. -/
inductive Gap where
  | header (stage : HeaderStage)
  | content (expected got : Nat)
  | marker
  deriving DecidableEq, Repr

namespace Gap

/-- Ahead of the first octet of an element. -/
def start : Gap := .header .identifier

def text : Gap → String
  | .header stage => stage.text
  | .content expected got =>
    "content: expected " ++ toString expected ++ " bytes, got " ++ toString got
  | .marker => "end-of-contents marker"

def failure (g : Gap) : Failure :=
  if g = start then .endOfInput else .truncated g.text

end Gap

end BasicEncoding
