import BasicEncoding.Attempt
import BasicEncoding.Parse.Element

/-! Sources: what reads will meet, in order. Reading an element looks at the octets that come before
the next break and takes only those that the element needs; where they are too few, the break is
met, and every octet before it is lost to the element. -/
namespace BasicEncoding

/-- One thing that a read meets. Octets may be taken in pieces; the other events are met once. A
delay begins when it is first met, and from then on is due at a fixed time. -/
inductive Event where
  | data (octets : Octets)
  | fault (fault : Fault)
  | close
  | stall
  | delay (span : Nat)
  | due (time : Nat)
  deriving DecidableEq, Repr

/-- The events to come. Behind the last one every read finds the source closed. -/
abbrev Source := List Event

/-- What a fault means in a gap. Contents are taken in one piece, and whatever breaks them stays a
fault; so does a fault ahead of an element. -/
def Gap.failureOn (g : Gap) (fault : Fault) : Failure :=
  match g with
  | .content _ _ => .input fault
  | g => if g = .start then .input fault else .ofFault fault g.text

namespace Source

def octetCount : Source → Nat
  | [] => 0
  | .data octets :: s => octets.length + octetCount s
  | _ :: s => octetCount s

/-- The octets before the next break. Reading waits, and goes on after an interruption. -/
def ahead : Source → Octets
  | [] => []
  | .data octets :: s => octets ++ ahead s
  | .close :: _ => []
  | .fault f :: s => if f.kind = .interrupted then ahead s else []
  | .stall :: s | .delay _ :: s | .due _ :: s => ahead s

/-- The source with so many octets taken, and the events between them. -/
def drop : Nat → Source → Source
  | 0, s => s
  | _ + 1, [] => []
  | n + 1, .data octets :: s =>
    if n + 1 < octets.length then .data (octets.drop (n + 1)) :: s
    else drop (n + 1 - octets.length) s
  | n + 1, _ :: s => drop (n + 1) s

/-- The next break, a fault or none if the source closes there, and what follows it. -/
def nextBreak : Source → Option Fault × Source
  | [] => (none, [])
  | .close :: s => (none, s)
  | .fault f :: s => if f.kind = .interrupted then nextBreak s else (some f, s)
  | .data _ :: s | .stall :: s | .delay _ :: s | .due _ :: s => nextBreak s

/-- Reads one element, waiting for it as long as it takes. -/
def read (limits : Limits) (s : Source) : Attempt Source Element :=
  let ahead := s.ahead
  let r := (Parse.elementAt limits 0).run ahead
  match r.outcome with
  | .done e rest => ⟨.ok e, s.drop (ahead.length - rest.length), r.notes⟩
  | .refused failure rest => ⟨.error failure, s.drop (ahead.length - rest.length), r.notes⟩
  | .short gap =>
    match s.nextBreak with
    | (none, after) => ⟨.error gap.failure, after, r.notes⟩
    | (some fault, after) => ⟨.error (gap.failureOn fault), after, r.notes⟩

theorem length_ahead_le (s : Source) : s.ahead.length ≤ s.octetCount := by
  induction s with
  | nil => exact Nat.le_refl 0
  | cons e s ih =>
      cases e with
      | data octets => simpa [ahead, octetCount] using ih
      | fault f =>
        unfold ahead octetCount
        split
        · exact ih
        · exact Nat.zero_le _
      | close => exact Nat.zero_le _
      | stall => exact ih
      | delay span => exact ih
      | due time => exact ih

theorem octetCount_drop (n : Nat) (s : Source) : (s.drop n).octetCount = s.octetCount - n := by
  fun_induction drop n s with
  | case1 s => rfl
  | case2 n => exact (Nat.zero_sub _).symm
  | case3 n octets s h => simp [octetCount]; omega
  | case4 n octets s h ih => rw [ih]; simp only [octetCount]; omega
  | case5 n e s h ih =>
    rw [ih]
    cases e with
    | data octets => exact absurd rfl (h octets)
    | _ => rfl

end Source

end BasicEncoding
