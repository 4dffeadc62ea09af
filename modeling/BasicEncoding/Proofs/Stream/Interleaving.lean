import BasicEncoding.Stream
import BasicEncoding.Proofs.Source.Truncation

/-! Streams used in both directions. Calls come in any order, with any time between them and any
limit on the reads. What goes out is what was written, element behind element; what comes in is what
reads of the same source give that wait as long as it takes. A read that exceeds its limit is told by
its result only. -/
namespace BasicEncoding

namespace Sink

def takes : WriteEvent → Bool
  | .accept count => count ≠ 0
  | .stall => true
  | .fault _ => false

/-- A sink that takes octets in pieces, none of them empty. -/
def Accepting (s : Sink) : Prop :=
  ∀ event ∈ s.writes, takes event = true

theorem go_accepting (s : Sink) {writes : List WriteEvent}
    (h : ∀ event ∈ writes, takes event = true) (octets written : Octets) :
    ∃ left, write.go s writes octets written =
        (.ok (), { s with writes := left, written := written ++ octets }) ∧
      ∀ event ∈ left, takes event = true := by
  induction writes generalizing octets written with
  | nil =>
      cases octets with
      | nil => exact ⟨[], by rw [List.append_nil, write.go], h⟩
      | cons octet octets => exact ⟨[], rfl, h⟩
  | cons event writes ih =>
      have htail := fun event hevent => h event (List.mem_cons_of_mem _ hevent)
      cases octets with
      | nil => exact ⟨event :: writes, by rw [List.append_nil, write.go], h⟩
      | cons octet octets =>
          cases event with
          | stall => exact ih htail (octet :: octets) written
          | fault f => exact nomatch h (.fault f) List.mem_cons_self
          | accept count =>
              cases count with
              | zero => exact nomatch h (.accept 0) List.mem_cons_self
              | succ count =>
                  obtain ⟨left, hgo, hleft⟩ := ih htail ((octet :: octets).drop (count + 1))
                    (written ++ (octet :: octets).take (count + 1))
                  refine ⟨left, ?_, hleft⟩
                  rw [List.append_assoc, List.take_append_drop] at hgo
                  exact hgo

theorem write_accepting {s : Sink} (h : s.Accepting) (octets : Octets) :
    (s.write octets).1 = .ok () ∧ (s.write octets).2.written = s.written ++ octets ∧
      (s.write octets).2.Accepting := by
  obtain ⟨left, hgo, hleft⟩ := go_accepting s h octets s.written
  rw [write, hgo]
  exact ⟨rfl, rfl, hleft⟩

theorem flush_keeps (s : Sink) :
    s.flush.2.writes = s.writes ∧ s.flush.2.written = s.written := by
  have hgo : ∀ flushes, (flush.go s flushes).2.writes = s.writes ∧
      (flush.go s flushes).2.written = s.written := by
    intro flushes
    induction flushes with
    | nil => exact ⟨rfl, rfl⟩
    | cons event flushes ih =>
        cases event with
        | success => exact ⟨rfl, rfl⟩
        | stall => exact ih
        | fault f => exact ⟨rfl, rfl⟩
  exact hgo s.flushes

end Sink

namespace Intake

/-- An intake that has taken none, or a part, of what a read takes next from a source that makes
nobody wait. -/
structure OnCourse (limits : Limits) (course : Source) (i : Intake) : Prop where
  ready : i.Ready limits
  faultless : course.Faultless
  prospect_eq : prospect limits i.assembly i.source =
    ((course.read limits).result, (course.read limits).after)

variable {limits : Limits} {course : Source} {i : Intake}

theorem onCourse_start (hstart : i.assembly = .start) (h : i.source.Faultless) :
    OnCourse i.limits i.source.awake i where
  ready := ready_of_start hstart fun f hf => absurd hf (h f)
  faultless := fun f hf => h f (List.mem_filter.mp hf).1
  prospect_eq := by rw [hstart, prospect_start]

theorem OnCourse.at_clock (h : OnCourse limits course i) (clock : Nat) :
    OnCourse limits course { i with clock } :=
  ⟨⟨h.ready.limits_eq, h.ready.sound, h.ready.plain⟩, h.faultless, h.prospect_eq⟩

theorem OnCourse.given_up (h : OnCourse limits course i) {patience : Patience}
    (hnone : (i.run patience).result = none) : OnCourse limits course (i.run patience).after := by
  have hrun := run_pursues h.ready patience
  exact ⟨hrun.ready, h.faultless, (hrun.given_up hnone).trans h.prospect_eq⟩

/-- A result is the one on course, and the course goes on behind it. -/
theorem OnCourse.ended (h : OnCourse limits course i) {patience : Patience}
    {result : Except Failure Element} (hresult : (i.run patience).result = some result) :
    result = (course.read limits).result ∧
      (i.run patience).after.source.octetCount = (course.read limits).after.octetCount ∧
      OnCourse limits (course.read limits).after (i.run patience).after := by
  have hrun := run_pursues h.ready patience
  obtain ⟨hprospect, hstart⟩ := hrun.ended result hresult
  rw [h.prospect_eq, Prod.mk.injEq] at hprospect
  obtain ⟨hread, hafter⟩ := hprospect
  refine ⟨hread.symm, ?_, hrun.ready, (h.faultless.read limits).1, ?_⟩
  · rw [hafter, Source.octetCount_awake]
  · rw [hstart, prospect_start, hafter]

end Intake

namespace Stream

inductive Call where
  | read
  | write (e : Element)
  | limit (timeout : Option Nat)
  | pause (span : Nat)

def Call.run (c : Call) (s : Stream) : Stream :=
  match c with
  | .read => s.read.after
  | .write e => (s.write e).after
  | .limit timeout => s.withTimeout timeout
  | .pause span => { s with intake := { s.intake with clock := s.intake.clock + span } }

def after (calls : List Call) (s : Stream) : Stream :=
  calls.foldl (fun s c => c.run s) s

def Call.sent : Call → Octets
  | .write e => e.encode
  | _ => []

/-- The result of a call that reads, with the octets that the source then has. -/
def Call.received (c : Call) (s : Stream) : List (Except Failure Element × Nat) :=
  match c with
  | .read => [(s.read.result, s.read.after.intake.source.octetCount)]
  | _ => []

def reads : List Call → Stream → List (Except Failure Element × Nat)
  | [], _ => []
  | c :: calls, s => c.received s ++ reads calls (c.run s)

/-- A result that does not say that a limit was exceeded. -/
def inTime : Except Failure Element → Bool
  | .error (.input f) => f.kind ≠ .timedOut
  | _ => true

def readsInTime (calls : List Call) (s : Stream) : List (Except Failure Element × Nat) :=
  (reads calls s).filter fun r => inTime r.1

def patience (s : Stream) : Patience × Nat :=
  match s.timeout with
  | none => (.endless, s.intake.clock)
  | some limit => (.upTo (s.intake.clock + limit), s.intake.clock + limit)

def pursuit (s : Stream) : Intake.Run :=
  s.intake.run s.patience.1

variable {limits : Limits} {course : Source} {s : Stream}

theorem read_eq (s : Stream) : s.read = read.finish s s.pursuit s.patience.2 := by
  obtain ⟨intake, sink, timeout⟩ := s
  cases timeout <;> rfl

theorem read_of_result {result : Except Failure Element} (h : s.pursuit.result = some result) :
    s.read.result = result ∧ s.read.after = { s with intake := s.pursuit.after } := by
  rw [read_eq, read.finish, h]
  exact ⟨rfl, rfl⟩

theorem read_of_given_up (h : s.pursuit.result = none) :
    s.read.result = .error (.input overtime) ∧
      ∃ clock, s.read.after = { s with intake := { s.pursuit.after with clock } } := by
  rw [read_eq, read.finish, h]
  exact ⟨rfl, _, rfl⟩

theorem read_keeps (s : Stream) :
    s.read.after.sink = s.sink ∧ s.read.after.timeout = s.timeout := by
  rw [read_eq]
  unfold read.finish
  split <;> exact ⟨rfl, rfl⟩

/-- No result of a source that never fails is taken for an exceeded limit. -/
theorem inTime_of_result (h : s.intake.OnCourse limits course) {result : Except Failure Element}
    (hresult : s.pursuit.result = some result) : inTime s.read.result = true := by
  have hinput := (h.faultless.read limits).2
  rw [← (h.ended hresult).1] at hinput
  rw [(read_of_result hresult).1]
  unfold inTime
  split
  · next f => exact absurd rfl (hinput f)
  · rfl

/-- A read is late under a limit only, and stays on course; any other gives what is next on it. -/
theorem read_onCourse (h : s.intake.OnCourse limits course) :
    (s.timeout ≠ none ∧ inTime s.read.result = false ∧
      s.read.after.intake.OnCourse limits course) ∨
    (inTime s.read.result = true ∧ s.read.result = (course.read limits).result ∧
      s.read.after.intake.source.octetCount = (course.read limits).after.octetCount ∧
      s.read.after.intake.OnCourse limits (course.read limits).after) := by
  cases hresult : s.pursuit.result with
  | none =>
      obtain ⟨hread, clock, hafter⟩ := read_of_given_up hresult
      rw [hread, hafter]
      refine .inl ⟨?_, rfl, (h.given_up hresult).at_clock clock⟩
      intro hunlimited
      rw [pursuit, patience, hunlimited] at hresult
      exact Intake.runFrom_endless _ _ _ _ hresult
  | some result =>
      have hintime := inTime_of_result h hresult
      obtain ⟨hread, hafter⟩ := read_of_result hresult
      obtain ⟨heq, hcount, hcourse⟩ := h.ended hresult
      rw [hread] at hintime ⊢
      rw [hafter]
      exact .inr ⟨hintime, heq, hcount, hcourse⟩

theorem write_keeps (s : Stream) (e : Element) : (s.write e).after.intake = s.intake := by
  unfold write
  dsimp only
  split <;> rfl

theorem write_onCourse (h : s.intake.OnCourse limits course) (e : Element) :
    (s.write e).after.intake.OnCourse limits course := by
  rw [write_keeps]
  exact h

/-- A call brings in nothing in time and stays on course, or it brings in what is next on it. -/
theorem call_onCourse (h : s.intake.OnCourse limits course) (c : Call) (calls : List Call) :
    ((c = .read → s.timeout ≠ none) ∧
      readsInTime (c :: calls) s = readsInTime calls (c.run s) ∧
      (c.run s).intake.OnCourse limits course) ∨
    (readsInTime (c :: calls) s =
        ((course.read limits).result, (course.read limits).after.octetCount) ::
          readsInTime calls (c.run s) ∧
      (c.run s).intake.OnCourse limits (course.read limits).after) := by
  cases c with
  | write e => exact .inl ⟨nofun, rfl, write_onCourse h e⟩
  | limit timeout => exact .inl ⟨nofun, rfl, h⟩
  | pause span => exact .inl ⟨nofun, rfl, h.at_clock _⟩
  | read =>
      have hreads : readsInTime (.read :: calls) s =
          if inTime s.read.result then
            (s.read.result, s.read.after.intake.source.octetCount) ::
              readsInTime calls s.read.after
          else readsInTime calls s.read.after := List.filter_cons
      rcases read_onCourse h with ⟨hlimit, hlate, hcourse⟩ | ⟨hintime, hresult, hcount, hcourse⟩
      · rw [hreads, hlate, if_neg Bool.false_ne_true]
        exact .inl ⟨fun _ => hlimit, rfl, hcourse⟩
      · rw [hreads, if_pos hintime, hresult, hcount]
        exact .inr ⟨rfl, hcourse⟩

theorem readsInTime_eq_reads (h : s.intake.OnCourse limits course) (calls : List Call) :
    readsInTime calls s = Source.reads limits (readsInTime calls s).length course := by
  induction calls generalizing s course with
  | nil => rfl
  | cons c calls ih =>
      rcases call_onCourse h c calls with ⟨-, hreads, hcourse⟩ | ⟨hreads, hcourse⟩
      · rw [hreads]
        exact ih hcourse
      · rw [hreads, List.length_cons, Source.reads, ← ih hcourse]

theorem after_onCourse (h : s.intake.OnCourse limits course) (calls : List Call) :
    ∃ later, (after calls s).intake.OnCourse limits later := by
  induction calls generalizing s course with
  | nil => exact ⟨course, h⟩
  | cons c calls ih =>
      rcases call_onCourse h c [] with ⟨-, -, hcourse⟩ | ⟨-, hcourse⟩
      · exact ih hcourse
      · exact ih hcourse

theorem readsInTime_append (calls more : List Call) (s : Stream) :
    readsInTime (calls ++ more) s = readsInTime calls s ++ readsInTime more (after calls s) := by
  have hreads : ∀ s, reads (calls ++ more) s = reads calls s ++ reads more (after calls s) := by
    induction calls with
    | nil => exact fun _ => rfl
    | cons c calls ih =>
        intro s
        rw [List.cons_append, reads, ih, ← List.append_assoc]
        rfl
  rw [readsInTime, hreads, List.filter_append]
  rfl

theorem length_readsInTime_unlimited (h : s.intake.OnCourse limits course)
    (htimeout : s.timeout = none) (n : Nat) :
    (readsInTime (List.replicate n .read) s).length = n := by
  induction n generalizing s course with
  | zero => rfl
  | succ n ih =>
      rcases call_onCourse h .read (List.replicate n .read) with
        ⟨hlimit, -, -⟩ | ⟨hreads, hcourse⟩
      · exact absurd htimeout (hlimit rfl)
      · have hlater : (Call.run .read s).timeout = none := (read_keeps s).2.trans htimeout
        rw [List.replicate_succ, hreads, List.length_cons, ih hcourse hlater]

theorem write_sends (h : s.sink.Accepting) (e : Element) :
    (s.write e).after.sink.written = s.sink.written ++ e.encode ∧
      (s.write e).after.sink.Accepting := by
  obtain ⟨hok, hwritten, haccepting⟩ := Sink.write_accepting h e.encode
  unfold write
  dsimp only
  generalize s.sink.write e.encode = attempt at hok hwritten haccepting
  obtain ⟨result, sink⟩ := attempt
  cases hok
  obtain ⟨hwrites, hflushed⟩ := Sink.flush_keeps sink
  refine ⟨hflushed.trans hwritten, ?_⟩
  intro event hevent
  exact haccepting event (hwrites ▸ hevent)

theorem call_sends (h : s.sink.Accepting) (c : Call) :
    (c.run s).sink.written = s.sink.written ++ c.sent ∧ (c.run s).sink.Accepting := by
  cases c with
  | write e => exact write_sends h e
  | limit timeout => exact ⟨(List.append_nil _).symm, h⟩
  | pause span => exact ⟨(List.append_nil _).symm, h⟩
  | read =>
      have hsink : (Call.run .read s).sink = s.sink := (read_keeps s).1
      rw [hsink]
      exact ⟨(List.append_nil _).symm, h⟩

theorem after_sends (h : s.sink.Accepting) (calls : List Call) :
    (after calls s).sink.written = s.sink.written ++ calls.flatMap Call.sent := by
  induction calls generalizing s with
  | nil => exact (List.append_nil _).symm
  | cons c calls ih =>
      obtain ⟨hwritten, haccepting⟩ := call_sends h c
      calc (after calls (c.run s)).sink.written
          = (c.run s).sink.written ++ calls.flatMap Call.sent := ih haccepting
        _ = s.sink.written ++ (c :: calls).flatMap Call.sent := by
            rw [hwritten, List.append_assoc, List.flatMap_cons]

/-- Whatever is done with a stream, in any order and under any limits: the sink has what was written,
and nothing else; the reads that were in time gave what reads of the octets give that have no limit,
one after another, and left as many octets. A read that is late costs nothing: without a limit, as
many results are still to be had as there are reads. -/
theorem interleaving_keeps_both_directions (s : Stream) (hstart : s.intake.assembly = .start)
    (hsource : s.intake.source.Faultless) (hsink : s.sink.Accepting) (calls : List Call) :
    (after calls s).sink.written = s.sink.written ++ calls.flatMap Call.sent ∧
    readsInTime calls s =
      Source.reads s.intake.limits (readsInTime calls s).length s.intake.source.awake ∧
    (s.intake.source.Unbroken → readsInTime calls s =
      Source.reads s.intake.limits (readsInTime calls s).length
        [.data s.intake.source.ahead]) ∧
    ∀ n, (readsInTime (calls ++ .limit none :: List.replicate n .read) s).length =
      (readsInTime calls s).length + n := by
  have hcourse := Intake.onCourse_start hstart hsource
  have hreads := readsInTime_eq_reads hcourse calls
  refine ⟨after_sends hsink calls, hreads, ?_, ?_⟩
  · intro hunbroken
    have hawake : s.intake.source.awake.Unbroken :=
      ⟨fun hclose => hunbroken.1 (List.mem_filter.mp hclose).1, hcourse.faultless⟩
    have hahead : s.intake.source.awake.ahead =
        Source.ahead [.data s.intake.source.ahead] := by
      rw [Source.ahead_awake]
      exact (List.append_nil _).symm
    rw [← Source.reads_of_same_ahead s.intake.limits hawake
      (Source.unbroken_data _) hahead]
    exact hreads
  · intro n
    obtain ⟨later, hlater⟩ := after_onCourse hcourse calls
    have hunlimited : readsInTime (.limit none :: List.replicate n .read) (after calls s) =
        readsInTime (List.replicate n .read) ((after calls s).withTimeout none) := rfl
    have hrest : ((after calls s).withTimeout none).intake.OnCourse s.intake.limits later := hlater
    rw [readsInTime_append, hunlimited, List.length_append,
      length_readsInTime_unlimited hrest rfl]

/-- Two elements, the first of which is interrupted by a delay, and a sink that takes single octets. -/
def crossing : Stream :=
  { intake :=
      { limits := {},
        source := [.data [0x04, 0x02, 0x05], .delay 20, .data [0x00, 0x02, 0x01, 0x07]] },
    sink := { writes := [.accept 1, .stall, .accept 1] },
    timeout := some 10 }

/-- Reads under four limits and under none, and a write between the first two. -/
def crossingCalls : List Call :=
  [.read, .write (.null ""), .limit (some 3), .read, .limit (some 30), .read, .limit (some 0), .read,
    .limit none, .read]

/-- The first two reads are late. The third waits for the delay and the fourth for nothing, since its
octets are ready; the last one meets the end. -/
theorem crossing_keeps_both_directions :
    crossing.intake.source.Unbroken ∧ crossing.sink.Accepting ∧
      (reads crossingCalls crossing).map (fun r => inTime r.1) =
        [false, false, true, true, true] ∧
      (readsInTime crossingCalls crossing).length = 3 ∧
      readsInTime crossingCalls crossing =
        Source.reads {} 3 [.data [0x04, 0x02, 0x05, 0x00, 0x02, 0x01, 0x07]] ∧
      (after crossingCalls crossing).sink.written = [0x05, 0x00] := by
  have hsource : crossing.intake.source.Unbroken := by decide
  have hsink : crossing.sink.Accepting := by
    unfold Sink.Accepting
    decide
  have hcount : (readsInTime crossingCalls crossing).length = 3 := by decide
  obtain ⟨hwritten, -, hreads, -⟩ :=
    interleaving_keeps_both_directions crossing rfl hsource.2 hsink crossingCalls
  have hthree := hreads hsource
  rw [hcount] at hthree
  exact ⟨hsource, hsink, by decide, hcount, hthree, hwritten⟩

end Stream

end BasicEncoding
