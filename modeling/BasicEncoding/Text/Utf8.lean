import BasicEncoding.Powers

/-! UTF-8: octets to characters, one octet at a time. A fault tells where the first bad
sequence starts and how much of it could not have been part of a longer good one. -/
namespace BasicEncoding.Text.Utf8

/-- Why octets are no UTF-8 text. No length means that the octets end inside a sequence that
was good so far. -/
structure Fault where
  validUpTo : Nat
  badLength : Option Nat
  deriving DecidableEq, Repr

def Fault.message (f : Fault) : String :=
  match f.badLength with
  | some n =>
    "invalid utf-8 sequence of " ++ toString n ++ " bytes from index " ++ toString f.validUpTo
  | none => "incomplete utf-8 byte sequence from index " ++ toString f.validUpTo

/-- Between two octets: how many more the sequence owes, what the next may be, the payload and
the octets of the sequence so far, and how many octets stand before it. -/
structure State where
  owed : Nat := 0
  low : Nat := 0x80
  high : Nat := 0xBF
  payload : Nat := 0
  seen : Nat := 0
  before : Nat := 0

/-- The octets owed after a first octet, with the bounds of the second. `C0`, `C1` and everything
above `F4` start no sequence. -/
def owedAfter? (first : Nat) : Option (Nat × Nat × Nat) :=
  if first < 0x80 then some (0, 0x80, 0xBF)
  else if first < 0xC2 then none
  else if first < 0xE0 then some (1, 0x80, 0xBF)
  else if first = 0xE0 then some (2, 0xA0, 0xBF)
  else if first = 0xED then some (2, 0x80, 0x9F)
  else if first < 0xF0 then some (2, 0x80, 0xBF)
  else if first = 0xF0 then some (3, 0x90, 0xBF)
  else if first < 0xF4 then some (3, 0x80, 0xBF)
  else if first = 0xF4 then some (3, 0x80, 0x8F)
  else none

/-- One octet: the next state and a character where one ends, or the length of the bad sequence. -/
def step (s : State) (octet : UInt8) : Except Nat (State × Option Char) :=
  let o := octet.toNat
  match s.owed with
  | 0 =>
    match owedAfter? o with
    | none => .error 1
    | some (0, _, _) => .ok ({ before := s.before + 1 }, some (Char.ofNat o))
    | some (owed, low, high) =>
      .ok ({ owed, low, high, payload := o % 2 ^ (6 - owed), seen := 1, before := s.before }, none)
  | owed + 1 =>
    if s.low ≤ o ∧ o ≤ s.high then
      let payload := s.payload * 64 + o % 64
      if owed = 0 then
        .ok ({ before := s.before + s.seen + 1 }, some (Char.ofNat payload))
      else
        .ok ({ owed, payload, seen := s.seen + 1, before := s.before }, none)
    else .error s.seen

/-- Characters so far stand in `done`, latest first. -/
def run (s : State) (done : List Char) : List UInt8 → Except Fault (List Char)
  | [] => if s.owed = 0 then .ok done.reverse else .error ⟨s.before, none⟩
  | octet :: rest =>
    match step s octet with
    | .ok (s, some c) => run s (c :: done) rest
    | .ok (s, none) => run s done rest
    | .error badLength => .error ⟨s.before, some badLength⟩

def decode (octets : List UInt8) : Except Fault (List Char) :=
  run {} [] octets

def encode (text : String) : List UInt8 :=
  text.toUTF8.toList

end BasicEncoding.Text.Utf8
