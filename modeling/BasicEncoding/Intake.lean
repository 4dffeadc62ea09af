import BasicEncoding.Assembly
import BasicEncoding.Source

/-! Intakes: elements from a source that is not always ready. A read may be given up whenever the
source makes it wait; what was taken stays in the assembly, and the next read goes on with it. Every
fault of the source ends the element that was being read. -/
namespace BasicEncoding

/-- What a read that cannot go on waits for. -/
inductive Wake where
  | soon
  | later (time : Nat)
  deriving DecidableEq, Repr

/-- Whether to wait at a time, and if so until when. -/
abbrev Patience := Wake → Nat → Option Nat

namespace Patience

def never : Patience := fun _ _ => none

def endless : Patience
  | .soon, now => some now
  | .later time, _ => some time

/-- Waits for nothing that comes after a time, and for nothing at all once it is reached. -/
def upTo (deadline : Nat) : Patience
  | .soon, now => if deadline ≤ now then none else some now
  | .later time, _ => if deadline < time then none else some time

/-- The time at which an event that is due at a time is met, if that is waited for. -/
def meet (p : Patience) (time now : Nat) : Option Nat :=
  if time ≤ now then some now else p (.later time) now

end Patience

structure Intake where
  limits : Limits
  source : Source
  assembly : Assembly := .start
  clock : Nat := 0

namespace Intake

/-- How far a read came; without a result it was given up. -/
structure Run where
  result : Option (Except Failure Element)
  after : Intake
  notes : List Note

/-- Goes through the events until a result, or until patience ends. Notes taken before stand latest
first. -/
def runFrom (limits : Limits) (patience : Patience) (clock : Nat) (a : Assembly)
    (before : List Note) : Source → Run
  | [] => ⟨some (.error a.gap.failure), { limits, source := [], clock }, before.reverse⟩
  | .close :: s => ⟨some (.error a.gap.failure), { limits, source := s, clock }, before.reverse⟩
  | .fault f :: s => ⟨some (.error (.input f)), { limits, source := s, clock }, before.reverse⟩
  | .data octets :: s =>
    match a.feedAll limits before octets with
    | (⟨a, none, notes⟩, _) => runFrom limits patience clock a notes.reverse s
    | (⟨a, some result, notes⟩, []) =>
      ⟨some result, { limits, source := s, assembly := a, clock }, notes⟩
    | (⟨a, some result, notes⟩, rest) =>
      ⟨some result, { limits, source := .data rest :: s, assembly := a, clock }, notes⟩
  | .stall :: s =>
    match patience .soon clock with
    | some clock => runFrom limits patience clock a before s
    | none => ⟨none, { limits, source := s, assembly := a, clock }, before.reverse⟩
  | .delay span :: s =>
    match patience.meet (clock + span) clock with
    | some clock => runFrom limits patience clock a before s
    | none =>
      ⟨none, { limits, source := .due (clock + span) :: s, assembly := a, clock }, before.reverse⟩
  | .due time :: s =>
    match patience.meet time clock with
    | some clock => runFrom limits patience clock a before s
    | none => ⟨none, { limits, source := .due time :: s, assembly := a, clock }, before.reverse⟩

def run (i : Intake) (patience : Patience) : Run :=
  runFrom i.limits patience i.clock i.assembly [] i.source

/-- Asks up to `n` times for an element and gives the read up then. -/
def poll (i : Intake) : Nat → Run
  | 0 => ⟨none, i, []⟩
  | n + 1 =>
    let r := i.run .never
    match r.result with
    | some _ => r
    | none =>
      let r' := r.after.poll n
      { r' with notes := r.notes ++ r'.notes }

end Intake

end BasicEncoding
