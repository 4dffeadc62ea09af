import BasicEncoding.Limits
import BasicEncoding.Note

/-! Parses: what octets at hand come to. A parse ends with a value and the octets behind it, with a
failure and the octets behind the point of failure, or short, in which case every octet was taken
and more would be needed. What running short means is left to whoever supplies the octets. -/
namespace BasicEncoding

inductive Outcome (α : Type) where
  | done (value : α) (rest : Octets)
  | refused (failure : Failure) (rest : Octets)
  | short (gap : Gap)
  deriving Repr

structure Reading (α : Type) where
  outcome : Outcome α
  notes : List Note := []

def Outcome.andThen {α β : Type} (o : Outcome α) (next : α → Octets → Outcome β) : Outcome β :=
  match o with
  | .done value rest => next value rest
  | .refused failure rest => .refused failure rest
  | .short gap => .short gap

def Outcome.map {α β : Type} (f : α → β) : Outcome α → Outcome β
  | .done value rest => .done (f value) rest
  | .refused failure rest => .refused failure rest
  | .short gap => .short gap

def Reading.map {α β : Type} (f : α → β) (r : Reading α) : Reading β :=
  ⟨r.outcome.map f, r.notes⟩

def Reading.andThen {α β : Type} (r : Reading α) (next : α → Octets → Reading β) : Reading β :=
  match r.outcome with
  | .done value rest =>
    let r' := next value rest
    ⟨r'.outcome, r.notes ++ r'.notes⟩
  | .refused failure rest => ⟨.refused failure rest, r.notes⟩
  | .short gap => ⟨.short gap, r.notes⟩

/-- Outcomes can be followed without the notes. -/
@[simp] theorem Reading.outcome_andThen {α β : Type} (r : Reading α)
    (next : α → Octets → Reading β) :
    (r.andThen next).outcome = r.outcome.andThen fun value rest => (next value rest).outcome := by
  unfold Reading.andThen Outcome.andThen
  split <;> simp [*]

structure Parse (α : Type) where
  run : Octets → Reading α

namespace Parse

variable {α β : Type}

instance : Monad Parse where
  pure value := ⟨fun octets => ⟨.done value octets, []⟩⟩
  bind p next := ⟨fun octets => (p.run octets).andThen fun value rest => (next value).run rest⟩

@[simp] theorem run_pure (value : α) (octets : Octets) :
    (pure value : Parse α).run octets = ⟨.done value octets, []⟩ := rfl

@[simp] theorem run_bind (p : Parse α) (next : α → Parse β) (octets : Octets) :
    (p >>= next).run octets =
      (p.run octets).andThen fun value rest => (next value).run rest := rfl

def refuse (failure : Failure) : Parse α :=
  ⟨fun octets => ⟨.refused failure octets, []⟩⟩

def note (n : Note) : Parse Unit :=
  ⟨fun octets => ⟨.done () octets, [n]⟩⟩

@[simp] theorem run_refuse (failure : Failure) (octets : Octets) :
    (refuse failure : Parse α).run octets = ⟨.refused failure octets, []⟩ := rfl

@[simp] theorem run_note (n : Note) (octets : Octets) :
    (note n).run octets = ⟨.done () octets, [n]⟩ := rfl

def ofExcept : Except Defect α → Parse α
  | .ok value => pure value
  | .error defect => refuse (.invalidData defect)

def require (check : Except Failure Unit) (n : Note) : Parse Unit :=
  match check with
  | .ok () => pure ()
  | .error failure => do
    note n
    refuse failure

def requireContentLength (limits : Limits) (count : UInt64) : Parse Unit :=
  require (limits.checkContentLength count) (.lengthRefused count limits.maxContentLength)

def content (count : Nat) : Parse Octets :=
  ⟨fun octets =>
    let taken := octets.take count
    if taken.length < count then ⟨.short (.content count taken.length), []⟩
    else ⟨.done taken (octets.drop count), []⟩⟩

def scanHeader (scan : HeaderScan) : Octets → Reading (Header × Octets)
  | [] => ⟨.short (.header scan.stage), []⟩
  | octet :: rest =>
    match scan.push octet with
    | (.ok none, scan) => scanHeader scan rest
    | (.ok (some header), scan) => ⟨.done (header, scan.octets) rest, []⟩
    | (.error defect, _) => ⟨.refused (.invalidData defect) rest, []⟩

def header : Parse (Header × Octets) :=
  ⟨scanHeader .start⟩

/-- A parse of contents that are at hand in full: a child that runs short overruns them. The octets
behind the contents stay as they are. -/
def within (contents : Octets) (p : Parse α) : Parse α :=
  ⟨fun octets =>
    let r := p.run contents
    match r.outcome with
    | .done value _ => ⟨.done value octets, r.notes⟩
    | .refused failure _ => ⟨.refused failure octets, r.notes⟩
    | .short gap => ⟨.refused (.invalidData (.childOverrun gap.text)) octets, r.notes⟩⟩

def repeatToEnd (p : Parse α) : Nat → Octets → Reading (List α)
  | _, [] => ⟨.done [] [], []⟩
  | 0, octets => ⟨.done [] octets, []⟩
  | n + 1, octets =>
    (p.run octets).andThen fun value rest => (repeatToEnd p n rest).map (value :: ·)

/-- Repeats a parse up to the end-of-contents marker, which is taken, `n` times at most. A zero
octet in front of a child can only begin the marker. -/
def repeatToMarker (p : Parse α) : Nat → Octets → Reading (List α)
  | _, [] | _, [0] => ⟨.short .marker, []⟩
  | _, 0 :: 0 :: rest => ⟨.done [] rest, []⟩
  | _, 0 :: _ :: rest => ⟨.refused (.invalidData .markerNotClosed) rest, []⟩
  | 0, _ => ⟨.short .marker, []⟩
  | n + 1, octets =>
    (p.run octets).andThen fun value rest => (repeatToMarker p n rest).map (value :: ·)

/-- Repeats a parse to the end of the octets. As it takes at least one octet each time, their
number bounds the repetitions. -/
def untilEnd (p : Parse α) : Parse (List α) :=
  ⟨fun octets => repeatToEnd p octets.length octets⟩

def untilMarker (p : Parse α) : Parse (List α) :=
  ⟨fun octets => repeatToMarker p octets.length octets⟩

theorem run_content_append (contents rest : Octets) :
    (content contents.length).run (contents ++ rest) = ⟨.done contents rest, []⟩ := by
  simp [content]

end Parse

end BasicEncoding
