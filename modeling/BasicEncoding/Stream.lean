import BasicEncoding.Element.Encode
import BasicEncoding.Intake

/-! Streams: whole elements in both directions. Reads may have a time limit, counted from their
start; a read that exceeds it fails and keeps what it has. Time passes only while a read waits. -/
namespace BasicEncoding

inductive WriteEvent where
  | accept (count : Nat)
  | stall
  | fault (fault : Fault)
  deriving DecidableEq, Repr

inductive FlushEvent where
  | success
  | stall
  | fault (fault : Fault)
  deriving DecidableEq, Repr

/-- Where octets go: the events of the writes and flushes to come, what has been written, and how
many flushes have succeeded. Behind its last event a sink takes everything. Whether an interrupted
write is tried again is up to the runtime. -/
structure Sink where
  writes : List WriteEvent := []
  flushes : List FlushEvent := []
  written : Octets := []
  flushed : Nat := 0
  retriesInterrupted : Bool := false
  deriving DecidableEq, Repr

namespace Sink

def refusal : Fault := ⟨.writeZero, "write zero"⟩

/-- Writes octets in as many pieces as it takes, up to the first fault. -/
def write (s : Sink) (octets : Octets) : Except Failure Unit × Sink :=
  go s.writes octets s.written
where
  go : List WriteEvent → Octets → Octets → Except Failure Unit × Sink
    | writes, [], written => (.ok (), { s with writes, written })
    | [], left, written => (.ok (), { s with writes := [], written := written ++ left })
    | .accept 0 :: writes, _, written => (.error (.input refusal), { s with writes, written })
    | .accept n :: writes, left, written => go writes (left.drop n) (written ++ left.take n)
    | .stall :: writes, left, written => go writes left written
    | .fault f :: writes, left, written =>
      if s.retriesInterrupted ∧ f.kind = .interrupted then go writes left written
      else (.error (.input f), { s with writes, written })

/-- Flushes what has been written, up to the first success or fault. -/
def flush (s : Sink) : Except Failure Unit × Sink :=
  go s.flushes
where
  go : List FlushEvent → Except Failure Unit × Sink
    | [] => (.ok (), { s with flushes := [], flushed := s.flushed + 1 })
    | .success :: flushes => (.ok (), { s with flushes, flushed := s.flushed + 1 })
    | .stall :: flushes => go flushes
    | .fault f :: flushes => (.error (.input f), { s with flushes })

end Sink

structure Stream where
  intake : Intake
  sink : Sink := {}
  timeout : Option Nat := none

namespace Stream

def overtime : Fault := ⟨.timedOut, "Timed out waiting for element"⟩

def withTimeout (s : Stream) (timeout : Option Nat) : Stream :=
  { s with timeout }

/-- Reads the next element. What is ready is read even if no time is left. -/
def read (s : Stream) : Attempt Stream Element :=
  match s.timeout with
  | none => finish (s.intake.run .endless) s.intake.clock
  | some limit =>
    let deadline := s.intake.clock + limit
    finish (s.intake.run (.upTo deadline)) deadline
where
  finish (r : Intake.Run) (deadline : Nat) : Attempt Stream Element :=
    match r.result with
    | some result => ⟨result, { s with intake := r.after }, r.notes⟩
    | none =>
      let intake := { r.after with clock := max r.after.clock deadline }
      ⟨.error (.input overtime), { s with intake }, r.notes⟩

def write (s : Stream) (e : Element) : Attempt Stream Unit :=
  let octets := e.encode
  let notes := e.notes ++ [.writing octets.length]
  match s.sink.write octets with
  | (.error failure, sink) => ⟨.error failure, { s with sink }, notes⟩
  | (.ok (), sink) =>
    let (result, sink) := sink.flush
    ⟨result, { s with sink }, notes⟩

end Stream

end BasicEncoding
