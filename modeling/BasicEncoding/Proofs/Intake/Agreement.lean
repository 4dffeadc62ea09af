import BasicEncoding.Intake
import BasicEncoding.Proofs.Assembly.Outlook
import BasicEncoding.Proofs.Source.Taking

/-! A resumable intake and a read that waits give the same results. Whatever an intake has taken is
part of the outlook of its assembly, so giving a read up changes nothing of what is to come. -/
namespace BasicEncoding.Intake

variable {limits : Limits}

/-- What an assembly comes to on a source without waits. -/
def prospect (limits : Limits) (a : Assembly) (s : Source) : Except Failure Element × Source :=
  (a.outlook limits s.awake.ahead).resolve s.awake

structure Ready (limits : Limits) (i : Intake) : Prop where
  limits_eq : i.limits = limits
  sound : i.assembly.Sound
  plain : i.source.Plain

theorem ready_of_start {i : Intake} (hstart : i.assembly = .start) (hplain : i.source.Plain) :
    i.Ready i.limits := by
  refine ⟨rfl, ?_, hplain⟩
  rw [hstart]
  exact Assembly.start_sound

/-- What a run makes of a prospect: a run that is given up leaves it, and any other ends in it,
with nothing of the element left. -/
structure Pursues (limits : Limits) (prospect : Except Failure Element × Source) (r : Run) :
    Prop where
  ready : r.after.Ready limits
  given_up : r.result = none →
    Intake.prospect limits r.after.assembly r.after.source = prospect
  ended : ∀ result, r.result = some result →
    prospect = (result, r.after.source.awake) ∧ r.after.assembly = .start

theorem prospect_start (limits : Limits) (s : Source) :
    prospect limits .start s = ((s.awake.read limits).result, (s.awake.read limits).after) := by
  rw [prospect, Assembly.start_outlook, Source.read_eq_resolve]

/-- A fault that is told from an end of input is reported as it is in every gap. -/
theorem failureOn_plain (gap : Gap) {f : Fault} (h : Source.EndsRead f) :
    gap.failureOn f = .input f := by
  have hfault : ∀ context, Failure.ofFault f context = .input f := fun _ => if_neg h.2
  unfold Gap.failureOn
  split
  · rfl
  · rw [hfault, ite_self]

variable {patience : Patience} {clock : Nat} {a : Assembly} {before : List Note} {s : Source}

theorem prospect_nil (ha : a.Sound) : prospect limits a [] = (.error a.gap.failure, []) := by
  change (a.outlook limits []).resolve [] = _
  rw [Assembly.outlook_nil ha]
  rfl

theorem prospect_close (ha : a.Sound) :
    prospect limits a (.close :: s) = (.error a.gap.failure, s.awake) := by
  change (a.outlook limits []).resolve (.close :: s.awake) = _
  rw [Assembly.outlook_nil ha]
  rfl

theorem prospect_fault (ha : a.Sound) {f : Fault} (hf : Source.EndsRead f) :
    prospect limits a (.fault f :: s) =
      (.error (.input f), s.awake) := by
  have hahead : Source.ahead (.fault f :: s.awake) = [] := if_neg hf.1
  have hbreak : Source.nextBreak (.fault f :: s.awake) = (some f, s.awake) := if_neg hf.1
  change (a.outlook limits (Source.ahead (.fault f :: s.awake))).resolve (.fault f :: s.awake) = _
  rw [hahead, Assembly.outlook_nil ha, Outcome.resolve, hbreak]
  dsimp only
  rw [failureOn_plain a.gap hf]

/-- Octets fed leave the prospect as it was, or end it. -/
theorem prospect_data {octets left : Octets} {fed : Assembly.Fed}
    (h : Assembly.FedAll limits a octets fed left) :
    prospect limits a (.data octets :: s) =
      match fed.result with
      | none => prospect limits fed.after s
      | some result => (result, if left.isEmpty then s.awake else .data left :: s.awake) := by
  change (a.outlook limits (octets ++ s.awake.ahead)).resolve (.data octets :: s.awake) = _
  rw [h.outlook_eq]
  unfold Assembly.Fed.outlook
  cases hresult : fed.result with
  | some result =>
      obtain ⟨octet, taken, htaken⟩ := h.ended result hresult
      exact Source.resolve_within result htaken s.awake
  | none =>
      rw [h.taken hresult]
      apply Source.resolve_data
      intro result rest heq
      exact Assembly.outlook_length h.tidy.sound heq

theorem prospect_wait {event : Event} (h : Source.awake (event :: s) = s.awake) :
    prospect limits a (event :: s) =
      prospect limits a s := by
  unfold prospect
  rw [h]

theorem runFrom_pursues (ha : a.Sound) (hs : s.Plain) :
    Pursues limits (prospect limits a s)
      (runFrom limits patience clock a before s) := by
  induction s generalizing clock a before with
  | nil =>
      refine ⟨⟨rfl, Assembly.start_sound, nofun⟩, nofun, ?_⟩
      rintro result ⟨⟩
      exact ⟨prospect_nil ha, rfl⟩
  | cons event s ih =>
      have hplain : Source.Plain s := hs.tail
      cases event with
      | close =>
          refine ⟨⟨rfl, Assembly.start_sound, hplain⟩, nofun, ?_⟩
          rintro result ⟨⟩
          exact ⟨prospect_close ha, rfl⟩
      | fault f =>
          refine ⟨⟨rfl, Assembly.start_sound, hplain⟩, nofun, ?_⟩
          rintro result ⟨⟩
          exact ⟨prospect_fault ha (hs f List.mem_cons_self), rfl⟩
      | data octets =>
          have hfed : Assembly.FedAll limits a octets (a.feedAll limits before octets).1
              (a.feedAll limits before octets).2 := Assembly.feedAll_spec ha before octets
          rw [prospect_data hfed, runFrom]
          generalize a.feedAll limits before octets = fedAll at hfed
          obtain ⟨⟨after, result, notes⟩, left⟩ := fedAll
          cases result with
          | none => exact ih hfed.tidy.sound hplain
          | some result =>
              have hstart : after = .start := hfed.tidy.restarts result rfl
              cases left with
              | nil =>
                  refine ⟨⟨rfl, hfed.tidy.sound, hplain⟩, nofun, ?_⟩
                  rintro _ ⟨⟩
                  exact ⟨rfl, hstart⟩
              | cons first left =>
                  refine ⟨⟨rfl, hfed.tidy.sound, hplain.cons nofun⟩, nofun, ?_⟩
                  rintro _ ⟨⟩
                  exact ⟨rfl, hstart⟩
      | stall =>
          rw [prospect_wait rfl, runFrom]
          cases patience .soon clock with
          | some later => exact ih ha hplain
          | none => exact ⟨⟨rfl, ha, hplain⟩, fun _ => rfl, nofun⟩
      | delay span =>
          rw [prospect_wait rfl, runFrom]
          cases patience.meet (clock + span) clock with
          | some later => exact ih ha hplain
          | none => exact ⟨⟨rfl, ha, hplain.cons nofun⟩, fun _ => rfl, nofun⟩
      | due time =>
          rw [prospect_wait rfl, runFrom]
          cases patience.meet time clock with
          | some later => exact ih ha hplain
          | none => exact ⟨⟨rfl, ha, hplain.cons nofun⟩, fun _ => rfl, nofun⟩

variable {i : Intake}

theorem run_pursues (h : i.Ready limits) (patience : Patience) :
    Pursues limits (prospect limits i.assembly i.source) (i.run patience) := by
  rw [run, h.limits_eq]
  exact runFrom_pursues h.sound h.plain

theorem poll_pursues (h : i.Ready limits) (n : Nat) :
    Pursues limits (prospect limits i.assembly i.source) (i.poll n) := by
  induction n generalizing i with
  | zero => exact ⟨h, fun _ => rfl, nofun⟩
  | succ n ih =>
      have hrun := run_pursues h .never
      rw [poll]
      dsimp only
      split
      · exact hrun
      · next hnone =>
        have hlater := ih hrun.ready
        rw [hrun.given_up hnone] at hlater
        exact ⟨hlater.ready, hlater.given_up, hlater.ended⟩

/-- A way to ask for an element. Either is given up at some wait, or not at all. -/
inductive Call where
  | polls (count : Nat)
  | wait (patience : Patience)

def Call.run (c : Call) (i : Intake) : Run :=
  match c with
  | .polls count => i.poll count
  | .wait patience => Intake.run i patience

/-- Results of calls one after another, each with the octets that the source then has. Calls that
are given up have none. -/
def reads : List Call → Intake → List (Except Failure Element × Nat)
  | [], _ => []
  | c :: calls, i =>
    let r := c.run i
    match r.result with
    | none => reads calls r.after
    | some result => (result, r.after.source.octetCount) :: reads calls r.after

end Intake

def Source.reads (limits : Limits) : Nat → Source → List (Except Failure Element × Nat)
  | 0, _ => []
  | n + 1, s =>
    let a := s.read limits
    (a.result, a.after.octetCount) :: Source.reads limits n a.after

namespace Intake

variable {limits : Limits} {i : Intake}

theorem call_pursues (h : i.Ready limits) (c : Call) :
    Pursues limits (prospect limits i.assembly i.source) (c.run i) := by
  cases c with
  | polls count => exact poll_pursues h count
  | wait patience => exact run_pursues h patience

/-- The first result is the prospect; those behind it are reads of the source it leaves. -/
def readsFrom (limits : Limits) (prospect : Except Failure Element × Source) :
    Nat → List (Except Failure Element × Nat)
  | 0 => []
  | n + 1 => (prospect.1, prospect.2.octetCount) :: Source.reads limits n prospect.2

theorem readsFrom_start (n : Nat) (s : Source) :
    readsFrom limits (prospect limits .start s) n = Source.reads limits n s.awake := by
  rw [prospect_start]
  cases n <;> rfl

theorem reads_eq_readsFrom (h : i.Ready limits) (calls : List Call) :
    reads calls i = readsFrom limits (prospect limits i.assembly i.source)
      (reads calls i).length := by
  induction calls generalizing i with
  | nil => rfl
  | cons c calls ih =>
      have hcall := call_pursues h c
      -- a call without a result passes the prospect on, any other starts a new one
      have hlater := ih hcall.ready
      rw [reads]
      cases hresult : (c.run i).result with
      | none =>
          rw [hcall.given_up hresult] at hlater
          exact hlater
      | some result =>
          obtain ⟨hprospect, hstart⟩ := hcall.ended result hresult
          rw [hstart, readsFrom_start] at hlater
          rw [List.length_cons, readsFrom, hprospect, ← hlater, Source.octetCount_awake]

theorem meet_endless (time now : Nat) : ∃ later, Patience.endless.meet time now = some later := by
  unfold Patience.meet
  split
  · exact ⟨now, rfl⟩
  · exact ⟨time, rfl⟩

theorem runFrom_endless (clock : Nat) (a : Assembly) (before : List Note) (s : Source) :
    (runFrom limits .endless clock a before s).result ≠ none := by
  induction s generalizing clock a before with
  | nil => exact nofun
  | cons event s ih =>
      cases event with
      | close => exact nofun
      | fault f => exact nofun
      | data octets =>
          rw [runFrom]
          split
          · exact ih _ _ _
          · exact nofun
          · exact nofun
      | stall => exact ih _ _ _
      | delay span =>
          obtain ⟨later, hlater⟩ := meet_endless (clock + span) clock
          rw [runFrom, hlater]
          exact ih _ _ _
      | due time =>
          obtain ⟨later, hlater⟩ := meet_endless time clock
          rw [runFrom, hlater]
          exact ih _ _ _

theorem reads_endless (n : Nat) (i : Intake) :
    (reads (List.replicate n (.wait .endless)) i).length = n := by
  induction n generalizing i with
  | zero => rfl
  | succ n ih =>
      have hresult : (Call.run (.wait .endless) i).result ≠ none := runFrom_endless _ _ _ _
      rw [List.replicate_succ, reads]
      cases h : (Call.run (.wait .endless) i).result with
      | none => exact absurd h hresult
      | some result => rw [List.length_cons, ih]

theorem length_reads_append (calls more : List Call) (i : Intake) :
    ∃ j : Intake,
      (reads (calls ++ more) i).length = (reads calls i).length + (reads more j).length := by
  induction calls generalizing i with
  | nil => exact ⟨i, (Nat.zero_add _).symm⟩
  | cons c calls ih =>
      obtain ⟨j, hj⟩ := ih (c.run i).after
      refine ⟨j, ?_⟩
      rw [List.cons_append, reads, reads]
      cases (c.run i).result with
      | none => exact hj
      | some result => rw [List.length_cons, List.length_cons, hj, Nat.add_right_comm]

/-- Whatever is asked of an intake, and wherever it is given up, the results that come are those of
reads that wait, on the source without the waits; and each leaves as many octets. However often an
intake was given up before, it gives a result to every call that waits long enough. -/
theorem reads_agree (limits : Limits) (clock : Nat) {s : Source} (hs : s.Plain)
    (calls : List Call) :
    reads calls { limits, source := s, clock } =
        Source.reads limits (reads calls { limits, source := s, clock }).length s.awake ∧
      s.awake.octetCount = s.octetCount ∧
      ∀ n, (reads (calls ++ List.replicate n (.wait .endless))
          { limits, source := s, clock }).length =
        (reads calls { limits, source := s, clock }).length + n := by
  have hready : Ready limits { limits, source := s, clock } := ⟨rfl, Assembly.start_sound, hs⟩
  refine ⟨?_, Source.octetCount_awake s, ?_⟩
  · rw [← readsFrom_start]
    exact reads_eq_readsFrom hready calls
  · intro n
    obtain ⟨j, hj⟩ := length_reads_append calls (List.replicate n (.wait .endless))
      { limits, source := s, clock }
    rw [hj, reads_endless]

/-- An element of open length that a fault ends inside its marker, and one behind a delay. -/
def brokenSource : Source :=
  [.data [0x30, 0x80, 0x05], .stall, .data [0x00, 0x00], .fault ⟨.timedOut, "late"⟩, .delay 7,
    .data [0x05, 0x00]]

theorem brokenSource_plain : brokenSource.Plain := by
  intro f hf
  simp only [brokenSource, List.mem_cons, reduceCtorEq, Event.fault.injEq, List.not_mem_nil,
    false_or, or_false] at hf
  subst hf
  exact ⟨nofun, nofun⟩

def brokenIntake : Intake :=
  { limits := {}, source := brokenSource, clock := 0 }

/-- Two of five calls are given up, inside the first element and ahead of the second. -/
def brokenCalls : List Call :=
  [.polls 1, .wait .endless, .polls 1, .wait .endless, .wait .endless]

/-- The call that is given up first has taken three of the seven octets. -/
theorem brokenSource_reads_agree :
    brokenSource.Plain ∧
      brokenSource.octetCount = 7 ∧ (Call.run (.polls 1) brokenIntake).result = none ∧
      (Call.run (.polls 1) brokenIntake).after.source.octetCount = 4 ∧
      (Call.run (.polls 1) brokenIntake).after.assembly.isBusy = true ∧
      (reads brokenCalls brokenIntake).length = 3 ∧
      reads brokenCalls brokenIntake = Source.reads {} 3 brokenSource.awake := by
  have hcount : (reads brokenCalls brokenIntake).length = 3 := by decide
  obtain ⟨hreads, -, -⟩ := reads_agree {} 0 brokenSource_plain brokenCalls
  change reads brokenCalls brokenIntake = Source.reads {} (reads brokenCalls brokenIntake).length _
    at hreads
  rw [hcount] at hreads
  exact ⟨brokenSource_plain, rfl, rfl, rfl, rfl, hcount, hreads⟩

end BasicEncoding.Intake
