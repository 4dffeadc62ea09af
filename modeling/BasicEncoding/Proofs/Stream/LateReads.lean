import BasicEncoding.Proofs.Intake.Buffers
import BasicEncoding.Proofs.Stream.Interleaving

/-! Reads that exceed their limits. What they took is in the buffers and counts for the read that
comes next, and octets for which nobody has to wait are read under every limit. -/
namespace BasicEncoding

/-- The octets that are there at a time, ahead of whatever has to be waited for. -/
def Source.ready (now : Nat) : Source → Octets
  | .data octets :: s => octets ++ ready now s
  | .delay span :: s => if span = 0 then ready now s else []
  | .due time :: s => if time ≤ now then ready now s else []
  | _ => []

theorem Patience.meet_of_le (p : Patience) {time now : Nat} (h : time ≤ now) :
    p.meet time now = some now :=
  if_pos h

namespace Intake

variable {limits : Limits} {patience : Patience} {clock : Nat} {a : Assembly} {s : Source}

/-- An assembly that the ready octets bring to an end has its result, whoever is patient or not. -/
theorem runFrom_of_ready (ha : a.Sound) {before : List Note} {result : Except Failure Element}
    {rest : Octets} (h : a.outlook limits (s.ready clock) = .ended result rest) :
    (runFrom limits patience clock a before s).result = some result := by
  have hnil : ∀ {a : Assembly}, a.Sound → a.outlook limits [] ≠ .ended result rest := by
    intro a ha
    rw [Assembly.outlook_nil ha]
    exact Outcome.ended_ne_short.symm
  induction s generalizing a before with
  | nil => exact absurd h (hnil ha)
  | cons event s ih =>
      cases event with
      | data octets =>
          have hfed : Assembly.FedAll limits a octets (a.feedAll limits before octets).1
              (a.feedAll limits before octets).2 := Assembly.feedAll_spec ha before octets
          rw [Source.ready, hfed.outlook_eq] at h
          rw [runFrom]
          generalize a.feedAll limits before octets = answer at hfed h
          obtain ⟨⟨after, found, notes⟩, left⟩ := answer
          cases found with
          | none =>
              obtain rfl : left = [] := hfed.taken rfl
              exact ih hfed.tidy.sound h
          | some found =>
              obtain rfl : found = result := (Outcome.ended_inj h).1
              cases left <;> rfl
      | delay span =>
          by_cases hspan : span = 0
          · have htime : clock + span ≤ clock := by omega
            rw [Source.ready, if_pos hspan] at h
            rw [runFrom, patience.meet_of_le htime]
            exact ih ha h
          · rw [Source.ready, if_neg hspan] at h
            exact absurd h (hnil ha)
      | due time =>
          by_cases htime : time ≤ clock
          · rw [Source.ready, if_pos htime] at h
            rw [runFrom, patience.meet_of_le htime]
            exact ih ha h
          · rw [Source.ready, if_neg htime] at h
            exact absurd h (hnil ha)
      | _ => exact absurd h (hnil ha)

end Intake

namespace Stream

/-- A stream that has taken octets since another, and has no result of them. -/
structure Since (s t : Stream) (taken : Octets) : Prop where
  source_eq : s.intake.source.octets = taken ++ t.intake.source.octets
  absorbed : s.intake.assembly.Absorbs s.intake.limits taken t.intake.assembly
  limits_eq : t.intake.limits = s.intake.limits

variable {limits : Limits} {course : Source} {s t u : Stream} {taken more : Octets}

theorem Since.refl (s : Stream) : s.Since s [] :=
  ⟨rfl, .refl _ _, rfl⟩

theorem Since.trans (h : s.Since t taken) (hmore : t.Since u more) : s.Since u (taken ++ more) := by
  have hlater := hmore.absorbed
  rw [h.limits_eq] at hlater
  refine ⟨?_, h.absorbed.trans hlater, hmore.limits_eq.trans h.limits_eq⟩
  rw [h.source_eq, hmore.source_eq, List.append_assoc]

/-- A read whose octets are ready, together with those taken before, has its result. -/
theorem read_of_ready (hs : s.intake.assembly.Sound) {result : Except Failure Element}
    {rest : Octets}
    (h : s.intake.assembly.outlook s.intake.limits (s.intake.source.ready s.intake.clock) =
      .ended result rest) :
    s.read.result = result :=
  (read_of_result (Intake.runFrom_of_ready hs h)).1

theorem read_since (h : s.intake.OnCourse limits course) (hlate : inTime s.read.result = false) :
    ∃ taken, s.Since s.read.after taken := by
  cases hresult : s.pursuit.result with
  | some result =>
      rw [inTime_of_result h hresult] at hlate
      cases hlate
  | none =>
      obtain ⟨-, clock, hafter⟩ := read_of_given_up hresult
      rw [hafter]
      cases Intake.run_takes h.ready.sound s.patience.1 with
      | ended some => exact absurd (hresult.symm.trans some) nofun
      | @given_up taken _ source_eq absorbed _ limits_eq =>
          exact ⟨taken, source_eq, absorbed, limits_eq⟩

theorem call_since (h : s.intake.OnCourse limits course) {c : Call}
    (hnone : readsInTime [c] s = []) : ∃ taken, s.Since (c.run s) taken := by
  cases c with
  | limit timeout => exact ⟨[], rfl, .refl _ _, rfl⟩
  | pause span => exact ⟨[], rfl, .refl _ _, rfl⟩
  | write e =>
      refine ⟨[], ?_⟩
      have hkept : (Call.run (.write e) s).intake = s.intake := write_keeps s e
      exact ⟨by rw [hkept]; rfl, by rw [hkept]; exact .refl _ _, by rw [hkept]⟩
  | read =>
      refine read_since h (Bool.eq_false_iff.mpr fun hintime => ?_)
      have hread : readsInTime [.read] s = [(s.read.result, s.read.after.intake.source.octetCount)] :=
        List.filter_cons_of_pos hintime
      rw [hread] at hnone
      cases hnone

theorem after_since (h : s.intake.OnCourse limits course) {calls : List Call}
    (hnone : readsInTime calls s = []) :
    ∃ taken later, s.Since (after calls s) taken ∧ (after calls s).intake.OnCourse limits later := by
  induction calls generalizing s course with
  | nil => exact ⟨[], course, .refl s, h⟩
  | cons c calls ih =>
      have hsplit := readsInTime_append [c] calls s
      rw [List.singleton_append, hnone] at hsplit
      obtain ⟨hfirst, hothers⟩ := List.append_eq_nil_iff.mp hsplit.symm
      obtain ⟨taken, hsince⟩ := call_since h hfirst
      obtain ⟨later, hlater⟩ := after_onCourse h [c]
      obtain ⟨more, last, hmore, hlast⟩ := ih hlater hothers
      exact ⟨taken ++ more, last, hsince.trans hmore, hlast⟩

/-- Calls of which no read is in time leave in the buffers, in order, all octets that they took. The
next read has the result that these octets come to together with those that are ready, if they come
to one, and it has it under every limit. -/
theorem late_reads_keep (hstart : s.intake.assembly = .start) (hsource : s.intake.source.Faultless)
    {calls : List Call} (hnone : readsInTime calls s = []) :
    ∃ taken, s.intake.source.octets = taken ++ (after calls s).intake.source.octets ∧
      (after calls s).intake.assembly.buffers.held = taken ∧
      ∀ (timeout : Option Nat) (result : Except Failure Element) (rest : Octets),
        ((Parse.elementAt s.intake.limits 0).run
          (taken ++ (after calls s).intake.source.ready (after calls s).intake.clock)).outcome =
            .ended result rest →
        ((after calls s).withTimeout timeout).read.result = result := by
  obtain ⟨taken, later, hsince, hcourse⟩ := after_since (Intake.onCourse_start hstart hsource) hnone
  obtain ⟨hpushed, houtlook⟩ := hsince.absorbed
  rw [hstart] at hpushed houtlook
  refine ⟨taken, hsince.source_eq, ?_, ?_⟩
  · exact (Buffers.pushAll_holds Buffers.fresh_consistent hpushed).2
  · intro timeout result rest hended
    rw [← Assembly.start_outlook, houtlook, ← hsince.limits_eq] at hended
    exact read_of_ready (s := (after calls s).withTimeout timeout) hcourse.ready.sound hended

/-- A read is given up in a delay that is over by the time of the next one, which has no time. -/
example :
    let s := after [.limit (some 10), .read, .pause 10]
      { intake := { limits := {}, source := [.data [0x04, 0x02, 0x05], .delay 20, .data [0x00]] } }
    s.intake.assembly.buffers.held = [0x04, 0x02, 0x05] ∧
      s.intake.source.ready s.intake.clock = [0x00] ∧
      inTime (s.withTimeout (some 0)).read.result = true := by decide

end Stream

end BasicEncoding
