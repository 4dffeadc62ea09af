import BasicEncoding.Proofs.Grammar.Unfinished
import BasicEncoding.Proofs.Source.Truncation

/-! Faults inside elements. A reader meets a fault where the octets ahead of it stop inside an
element, and nowhere else. A read that waits tells an unexpected end there as a truncation, unless
it is among contents of a stated length; an intake never does, and to it every fault is one of the
input. -/
namespace BasicEncoding

def Gap.inContents : Gap → Bool
  | .content _ _ => true
  | .header _ | .marker => false

theorem Gap.failureOn_of_ne_start {gap : Gap} (h : gap ≠ .start) (f : Fault) :
    gap.failureOn f =
      if f.kind = .unexpectedEnd ∧ gap.inContents = false then .truncated gap.text
      else .input f := by
  cases gap with
  | content expected got =>
      have hcontents : ¬(Gap.content expected got).inContents = false := nofun
      rw [if_neg fun hboth => hcontents hboth.2]
      rfl
  | header stage => simp only [failureOn, if_neg h, Failure.ofFault, inContents, and_true]
  | marker => simp only [failureOn, if_neg h, Failure.ofFault, inContents, and_true]

namespace Source

variable {limits : Limits} {s after : Source} {f : Fault}

theorem Unbroken.cons {event : Event} (h : s.Unbroken) (hclose : event ≠ .close)
    (hfault : ∀ f, event ≠ .fault f) : Unbroken (event :: s) := by
  constructor
  · intro hmem
    rcases List.mem_cons.mp hmem with heq | hmem
    · exact hclose heq.symm
    · exact h.1 hmem
  · intro f hmem
    rcases List.mem_cons.mp hmem with heq | hmem
    · exact hfault f heq.symm
    · exact h.2 f hmem

theorem Unbroken.due (h : s.Unbroken) (time : Nat) : Unbroken (.due time :: s) :=
  h.cons nofun nofun

/-- Where octets stop inside an element, a read meets the fault behind them. -/
theorem read_at_fault {gap : Gap} (hbreak : s.nextBreak = (some f, after))
    (h : Unfinished limits 0 s.ahead gap) :
    (s.read limits).after = after ∧ (s.read limits).result = .error
      (if f.kind = .unexpectedEnd ∧ gap.inContents = false then .truncated gap.text
        else .input f) := by
  have hshort := (Parse.elementAt_eq_short_iff limits 0 h.ne_nil).mpr h
  have hgap : gap ≠ .start := by
    obtain ⟨octet, octets, hahead⟩ := List.exists_cons_of_ne_nil h.ne_nil
    have hbegun := Parse.begins_elementAt limits 0 octet octets
    rw [← hahead, hshort] at hbegun
    exact hbegun
  have hread := read_eq_resolve limits s
  rw [hshort, Outcome.resolve, hbreak, Prod.mk.injEq] at hread
  rw [hread.1, hread.2, Gap.failureOn_of_ne_start hgap]
  exact ⟨rfl, rfl⟩

end Source

namespace Intake

/-- An intake with octets to come, in any pieces, before it meets a fault, and what those octets
come to. -/
structure Faces (limits : Limits) (f : Fault) (rest : Source) (comes : Outcome Element)
    (i : Intake) : Prop where
  limits_eq : i.limits = limits
  sound : i.assembly.Sound
  exists_front : ∃ front : Source, front.Unbroken ∧ i.source = front ++ .fault f :: rest ∧
    i.assembly.outlook limits front.ahead = comes

/-- A result that octets decide, or the fault behind octets that decide nothing. -/
def Settles (f : Fault) (rest : Source) (comes : Outcome Element)
    (answer : Except Failure Element × Nat) : Prop :=
  (∃ left, comes = .ended answer.1 left) ∨
    (∃ gap, comes = .short gap) ∧ answer = (.error (.input f), rest.octetCount)

/-- A run of such an intake: given up, it faces the same, and otherwise that is settled. -/
inductive Meets (limits : Limits) (f : Fault) (rest : Source) (comes : Outcome Element)
    (r : Run) : Prop
  | given_up (none : r.result = none) (faces : Faces limits f rest comes r.after) :
      Meets limits f rest comes r
  | ended {result : Except Failure Element} (some : r.result = some result)
      (settles : Settles f rest comes (result, r.after.source.octetCount)) :
      Meets limits f rest comes r

variable {limits : Limits} {f : Fault} {front rest : Source} {comes : Outcome Element} {i : Intake}

theorem Meets.noted {r : Run} (h : Meets limits f rest comes r) (notes : List Note) :
    Meets limits f rest comes { r with notes } := by
  cases h with
  | given_up none faces => exact .given_up none faces
  | ended some settles => exact .ended some settles

theorem runFrom_meets {a : Assembly} (ha : a.Sound) (hfront : front.Unbroken)
    (patience : Patience) (clock : Nat) (before : List Note) :
    Meets limits f rest (a.outlook limits front.ahead)
      (runFrom limits patience clock a before (front ++ .fault f :: rest)) := by
  induction front generalizing clock a before with
  | nil => exact .ended rfl (.inr ⟨⟨a.gap, Assembly.outlook_nil ha⟩, rfl⟩)
  | cons event front ih =>
      have htail : Source.Unbroken front := hfront.tail
      -- A delay that is given up stands in front of the source as the time at which it is over.
      have hdue : ∀ time clock notes,
          Meets limits f rest (a.outlook limits (Source.ahead front))
            ⟨none, { limits, source := .due time :: (front ++ .fault f :: rest), assembly := a,
                     clock }, notes⟩ :=
        fun time _ _ => .given_up rfl ⟨rfl, ha, .due time :: front, htail.due time, rfl, rfl⟩
      cases event with
      | close => exact absurd List.mem_cons_self hfront.1
      | fault other => exact absurd List.mem_cons_self (hfront.2 other)
      | data octets =>
          have hfed := @Assembly.feedAll_spec limits a ha before octets
          have houtlook := hfed.outlook_eq (Source.ahead front)
          change Meets limits f rest (a.outlook limits (octets ++ Source.ahead front)) _
          rw [houtlook, List.cons_append, runFrom]
          generalize a.feedAll limits before octets = fedAll at hfed
          obtain ⟨⟨after, result, notes⟩, left⟩ := fedAll
          cases result with
          | none =>
              obtain rfl : left = [] := hfed.taken rfl
              exact ih hfed.tidy.sound htail _ _
          | some result => cases left <;> exact .ended rfl (.inl ⟨_, rfl⟩)
      | stall =>
          rw [List.cons_append, runFrom]
          cases patience .soon clock with
          | some later => exact ih ha htail _ _
          | none => exact .given_up rfl ⟨rfl, ha, front, htail, rfl, rfl⟩
      | delay span =>
          rw [List.cons_append, runFrom]
          cases patience.meet (clock + span) clock with
          | some later => exact ih ha htail _ _
          | none => exact hdue (clock + span) _ _
      | due time =>
          rw [List.cons_append, runFrom]
          cases patience.meet time clock with
          | some later => exact ih ha htail _ _
          | none => exact hdue time _ _

theorem run_meets (h : Faces limits f rest comes i) (patience : Patience) :
    Meets limits f rest comes (i.run patience) := by
  obtain ⟨hlimits, hsound, front, hfront, hsource, rfl⟩ := h
  rw [run, hlimits, hsource]
  exact runFrom_meets hsound hfront _ _ _

theorem poll_meets (h : Faces limits f rest comes i) (n : Nat) :
    Meets limits f rest comes (i.poll n) := by
  induction n generalizing i with
  | zero => exact .given_up rfl h
  | succ n ih =>
      rw [poll]
      dsimp only
      cases run_meets h .never with
      | ended some settles =>
          rw [some]
          exact .ended some settles
      | given_up none faces =>
          rw [none]
          exact (ih faces).noted _

theorem call_meets (h : Faces limits f rest comes i) (c : Call) :
    Meets limits f rest comes (c.run i) := by
  cases c with
  | polls count => exact poll_meets h count
  | wait patience => exact run_meets h patience

/-- However often calls are given up, the first result settles what the intake faced. -/
theorem reads_settle (h : Faces limits f rest comes i) (calls : List Call)
    {first : Except Failure Element × Nat} {later : List (Except Failure Element × Nat)}
    (hreads : reads calls i = first :: later) : Settles f rest comes first := by
  induction calls generalizing i with
  | nil => cases hreads
  | cons c calls ih =>
      rw [reads] at hreads
      cases call_meets h c with
      | given_up none faces =>
          rw [none] at hreads
          exact ih faces hreads
      | ended some settles =>
          rw [some] at hreads
          cases hreads
          exact settles

theorem exists_reads_endless (calls : List Call) (i : Intake) :
    ∃ first later, reads (calls ++ [.wait .endless]) i = first :: later := by
  obtain ⟨j, hlength⟩ := length_reads_append calls [.wait .endless] i
  have hlast := reads_endless 1 j
  rw [List.replicate_one] at hlast
  rw [hlast] at hlength
  cases hreads : reads (calls ++ [.wait .endless]) i with
  | nil =>
      rw [hreads] at hlength
      cases hlength
  | cons first later => exact ⟨first, later, rfl⟩

theorem reads_at_fault (limits : Limits) (f : Fault) {front : Source} (rest : Source) (clock : Nat)
    (calls : List Call) (hfront : front.Unbroken) :
    ∃ first later,
      reads (calls ++ [.wait .endless])
          { limits, source := front ++ .fault f :: rest, clock } = first :: later ∧
        Settles f rest ((Parse.elementAt limits 0).run front.ahead).outcome first := by
  obtain ⟨first, later, hreads⟩ := exists_reads_endless calls
    { limits, source := front ++ .fault f :: rest, clock }
  have hfaces : Faces limits f rest ((Parse.elementAt limits 0).run front.ahead).outcome
      { limits, source := front ++ .fault f :: rest, clock } :=
    ⟨rfl, Assembly.start_sound, front, hfront, rfl, Assembly.start_outlook _⟩
  exact ⟨first, later, hreads, reads_settle hfaces _ hreads⟩

end Intake

/-- Octets that do not stop inside an element decide what they come to. -/
theorem exists_ended_of_not_unfinished {limits : Limits} {octets : Octets} (hne : octets ≠ [])
    (h : ¬∃ gap, Unfinished limits 0 octets gap) :
    ∃ result left, ((Parse.elementAt limits 0).run octets).outcome = .ended result left := by
  rcases Outcome.exists_ended_or_short ((Parse.elementAt limits 0).run octets).outcome with
    hended | ⟨gap, hshort⟩
  · exact hended
  · exact absurd ⟨gap, (Parse.elementAt_eq_short_iff limits 0 hne).mp hshort⟩ h

namespace Fault

/-- A fault behind octets is met where they stop inside an element. A read that waits then reports a
truncation if and only if the fault is an unexpected end that does not come among contents of a
stated length; an intake, wherever it was given up before, always reports a fault of the input.
Behind any other octets neither reports anything but what lies in the octets. -/
theorem reported_inside_element (f : Fault) (limits : Limits) :
    (∀ s after : Source, s.nextBreak = (some f, after) → s.ahead ≠ [] →
      (∀ gap, Unfinished limits 0 s.ahead gap →
        (s.read limits).after = after ∧ (s.read limits).result = .error
          (if f.kind = .unexpectedEnd ∧ gap.inContents = false then .truncated gap.text
            else .input f)) ∧
      ((¬∃ gap, Unfinished limits 0 s.ahead gap) →
        ∀ failure, (s.read limits).result = .error failure → failure.Refusal)) ∧
    ∀ (front rest : Source) (clock : Nat) (calls : List Intake.Call),
      front.Unbroken → front.ahead ≠ [] →
      ∃ first later,
        Intake.reads (calls ++ [.wait .endless])
            { limits, source := front ++ .fault f :: rest, clock } = first :: later ∧
          (∀ gap, Unfinished limits 0 front.ahead gap →
            first = (.error (.input f), rest.octetCount)) ∧
          ((¬∃ gap, Unfinished limits 0 front.ahead gap) →
            ∀ failure, first.1 = .error failure → failure.Refusal) := by
  constructor
  · intro s after hbreak hne
    refine ⟨fun gap hgap => Source.read_at_fault hbreak hgap, fun hnone failure hfailure => ?_⟩
    obtain ⟨result, left, hended⟩ := exists_ended_of_not_unfinished hne hnone
    rw [(Source.read_of_ended hended).1] at hfailure
    rw [hfailure] at hended
    exact Parse.refusal_elementAt hended
  · intro front rest clock calls hfront hne
    obtain ⟨first, later, hreads, hsettles⟩ :=
      Intake.reads_at_fault limits f rest clock calls hfront
    refine ⟨first, later, hreads, fun gap hgap => ?_, fun hnone failure hfailure => ?_⟩
    · have hshort := (Parse.elementAt_eq_short_iff limits 0 hne).mpr hgap
      rcases hsettles with ⟨left, hended⟩ | ⟨-, hfault⟩
      · rw [hended] at hshort
        exact (Outcome.ended_ne_short hshort).elim
      · exact hfault
    · obtain ⟨result, left, hended⟩ := exists_ended_of_not_unfinished hne hnone
      rcases hsettles with ⟨left, hended⟩ | ⟨⟨gap, hshort⟩, -⟩
      · rw [hfailure] at hended
        exact Parse.refusal_elementAt hended
      · rw [hended] at hshort
        exact (Outcome.ended_ne_short hshort).elim

/-- The source reports an end where the element needs more. -/
def gone : Fault := ⟨.unexpectedEnd, "gone"⟩

/-- The same fault inside a length, and among contents: a read that waits tells a truncation from
the first alone, and an intake from neither. -/
theorem gone_reported_inside_element :
    (Source.read {} [.data [0x30, 0x80, 0x04], .fault gone]).result =
        .error (.truncated "length octet") ∧
      (Source.read {} [.data [0x04, 0x02, 0xAA], .fault gone]).result = .error (.input gone) ∧
      ∃ later, Intake.reads [.polls 1, .wait .endless]
          { limits := {}, source := [.data [0x30, 0x80], .stall, .data [0x04], .fault gone] } =
        (.error (.input gone), 0) :: later := by
  obtain ⟨hread, hcalls⟩ := gone.reported_inside_element {}
  have hlength : Unfinished {} 0 [0x30, 0x80, 0x04] (.header .lengthStart) :=
    (Parse.elementAt_eq_short_iff {} 0 (List.cons_ne_nil _ _)).mp rfl
  have hcontents : Unfinished {} 0 [0x04, 0x02, 0xAA] (.content 2 1) :=
    (Parse.elementAt_eq_short_iff {} 0 (List.cons_ne_nil _ _)).mp rfl
  refine ⟨?_, ?_, ?_⟩
  · obtain ⟨hfault, -⟩ := hread [.data [0x30, 0x80, 0x04], .fault gone] [] rfl (by decide)
    exact (hfault _ hlength).2
  · obtain ⟨hfault, -⟩ := hread [.data [0x04, 0x02, 0xAA], .fault gone] [] rfl (by decide)
    exact (hfault _ hcontents).2
  · obtain ⟨first, later, hreads, hfault, -⟩ := hcalls
      [.data [0x30, 0x80], .stall, .data [0x04]] [] 0 [.polls 1] (by decide) (by decide)
    rw [hfault _ hlength] at hreads
    exact ⟨later, hreads⟩

end Fault

end BasicEncoding
