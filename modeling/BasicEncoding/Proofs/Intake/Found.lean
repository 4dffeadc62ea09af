import BasicEncoding.Proofs.Grammar.Acceptance
import BasicEncoding.Proofs.Intake.Agreement

/-! What intakes find, on any source. Faults drop what was taken and start over, so the octets of an
element need not be those the source has ahead; but there are such octets, and they derive it. -/
namespace BasicEncoding

namespace Assembly

/-- Octets that were fed to a fresh assembly have led to this one. -/
structure Stems (limits : Limits) (a : Assembly) : Prop where
  sound : a.Sound
  exists_fed : ∃ taken, ∀ more,
    start.outlook limits (taken ++ more) = a.outlook limits more

variable {limits : Limits} {a : Assembly}

theorem start_stems (limits : Limits) : start.Stems limits :=
  ⟨start_sound, [], fun _ => rfl⟩

theorem Stems.feedAll (h : a.Stems limits) (before : List Note) (octets : Octets) :
    (a.feedAll limits before octets).1.after.Stems limits ∧
      ∀ e, (a.feedAll limits before octets).1.result = some (.ok e) →
        ∃ taken, Derives limits 0 taken e := by
  obtain ⟨fed, hfed⟩ := h.exists_fed
  have hall : FedAll limits a octets (a.feedAll limits before octets).1
      (a.feedAll limits before octets).2 := feedAll_spec h.sound before octets
  generalize a.feedAll limits before octets = answer at hall
  obtain ⟨⟨after, result, notes⟩, left⟩ := answer
  dsimp only at hall ⊢
  cases result with
  | some result =>
      obtain rfl : after = start := hall.tidy.restarts result rfl
      refine ⟨start_stems limits, ?_⟩
      rintro e ⟨⟩
      have houtlook := hall.outlook_eq []
      rw [← hfed, start_outlook] at houtlook
      obtain ⟨taken, -, hderives⟩ := (Parse.reads_elementAt limits 0 _ _ _).mp houtlook
      exact ⟨taken, hderives⟩
  | none =>
      refine ⟨⟨hall.tidy.sound, fed ++ octets, fun more => ?_⟩, nofun⟩
      have houtlook := hall.outlook_eq more
      rw [hall.taken rfl, List.nil_append] at houtlook
      rw [List.append_assoc, hfed, houtlook]
      rfl

end Assembly

namespace Intake

/-- What a run finds is derived by octets, and what it leaves stems from a fresh assembly. -/
structure Finds (limits : Limits) (r : Run) : Prop where
  limits_eq : r.after.limits = limits
  stems : r.after.assembly.Stems limits
  derived : ∀ e, r.result = some (.ok e) → ∃ taken, Derives limits 0 taken e

variable {limits : Limits} {i : Intake}

/-- A run that is given up or fails finds nothing. -/
theorem finds_nothing {r : Run} (hlimits : r.after.limits = limits)
    (hstems : r.after.assembly.Stems limits)
    (h : r.result = none ∨ ∃ failure, r.result = some (.error failure)) : Finds limits r := by
  refine ⟨hlimits, hstems, fun e he => ?_⟩
  rcases h with h | ⟨failure, h⟩
  · rw [h] at he
    cases he
  · rw [h] at he
    cases he

/-- What an event does to a run, whatever the limits: octets are fed, a break fails the element that
was being read, and a wait is waited for or ends the run, with nothing taken from the source. -/
theorem runFrom_event (patience : Patience) (clock : Nat) (event : Event) (s : Source) :
    (∃ octets, event = .data octets) ∨
    (∀ a : Assembly, ∃ failure, ∀ limits before,
      runFrom limits patience clock a before (event :: s) =
        ⟨some (.error failure), { limits, source := s, clock }, before.reverse⟩) ∨
    (Source.awake (event :: s) = s.awake ∧
      ∃ later, ∀ limits a before, runFrom limits patience clock a before (event :: s) =
        runFrom limits patience later a before s) ∨
    ∃ rest, rest.awake = Source.awake (event :: s) ∧
      ∀ limits a before, runFrom limits patience clock a before (event :: s) =
        ⟨none, { limits, source := rest, assembly := a, clock }, before.reverse⟩ := by
  cases event with
  | data octets => exact .inl ⟨octets, rfl⟩
  | close => exact .inr (.inl fun a => ⟨a.gap.failure, fun _ _ => rfl⟩)
  | fault f => exact .inr (.inl fun _ => ⟨.input f, fun _ _ => rfl⟩)
  | stall =>
      simp only [runFrom]
      cases patience .soon clock with
      | some later => exact .inr (.inr (.inl ⟨rfl, later, fun _ _ _ => rfl⟩))
      | none => exact .inr (.inr (.inr ⟨s, rfl, fun _ _ _ => rfl⟩))
  | delay span =>
      simp only [runFrom]
      cases patience.meet (clock + span) clock with
      | some later => exact .inr (.inr (.inl ⟨rfl, later, fun _ _ _ => rfl⟩))
      | none => exact .inr (.inr (.inr ⟨.due (clock + span) :: s, rfl, fun _ _ _ => rfl⟩))
  | due time =>
      simp only [runFrom]
      cases patience.meet time clock with
      | some later => exact .inr (.inr (.inl ⟨rfl, later, fun _ _ _ => rfl⟩))
      | none => exact .inr (.inr (.inr ⟨.due time :: s, rfl, fun _ _ _ => rfl⟩))

theorem runFrom_finds {a : Assembly} (ha : a.Stems limits) (patience : Patience) (clock : Nat)
    (before : List Note) (s : Source) :
    Finds limits (runFrom limits patience clock a before s) := by
  induction s generalizing clock a before with
  | nil => exact finds_nothing rfl (Assembly.start_stems limits) (.inr ⟨_, rfl⟩)
  | cons event s ih =>
      rcases runFrom_event patience clock event s with
        ⟨octets, rfl⟩ | hbreak | ⟨-, later, hwaited⟩ | ⟨rest, -, hgivenUp⟩
      · obtain ⟨hstems, hfound⟩ := ha.feedAll before octets
        rw [runFrom]
        generalize a.feedAll limits before octets = answer at hstems hfound
        obtain ⟨⟨after, result, notes⟩, left⟩ := answer
        cases result with
        | none => exact ih hstems _ _
        | some result => cases left <;> exact ⟨rfl, hstems, hfound⟩
      · obtain ⟨failure, hfailed⟩ := hbreak a
        rw [hfailed]
        exact finds_nothing rfl (Assembly.start_stems limits) (.inr ⟨failure, rfl⟩)
      · rw [hwaited]
        exact ih ha _ _
      · rw [hgivenUp]
        exact finds_nothing rfl ha (.inl rfl)

theorem run_finds (hlimits : i.limits = limits) (h : i.assembly.Stems limits)
    (patience : Patience) : Finds limits (i.run patience) := by
  rw [run, hlimits]
  exact runFrom_finds h _ _ _ _

theorem poll_finds (hlimits : i.limits = limits) (h : i.assembly.Stems limits) (n : Nat) :
    Finds limits (i.poll n) := by
  induction n generalizing i with
  | zero => exact finds_nothing hlimits h (.inl rfl)
  | succ n ih =>
      have hrun := run_finds hlimits h .never
      rw [poll]
      dsimp only
      split
      · exact hrun
      · have hlater := ih hrun.limits_eq hrun.stems
        exact ⟨hlater.limits_eq, hlater.stems, hlater.derived⟩

theorem call_finds (hlimits : i.limits = limits) (h : i.assembly.Stems limits) (c : Call) :
    Finds limits (c.run i) := by
  cases c with
  | polls count => exact poll_finds hlimits h count
  | wait patience => exact run_finds hlimits h patience

theorem exists_derives_of_reads_from (hlimits : i.limits = limits)
    (h : i.assembly.Stems limits) (calls : List Call) {e : Element} {count : Nat}
    (hmem : (.ok e, count) ∈ reads calls i) : ∃ taken, Derives limits 0 taken e := by
  induction calls generalizing i with
  | nil => cases hmem
  | cons c calls ih =>
      have hcall := call_finds hlimits h c
      rw [reads] at hmem
      split at hmem
      · exact ih hcall.limits_eq hcall.stems hmem
      · next result hresult =>
        rcases List.mem_cons.mp hmem with heq | hmem
        · refine hcall.derived e ?_
          rw [hresult, ← (Prod.mk.inj heq).1]
        · exact ih hcall.limits_eq hcall.stems hmem

/-- Every element that calls give, from any source at all, is derived by octets. -/
theorem exists_derives_of_reads {s : Source} {clock : Nat} {calls : List Call} {e : Element}
    {count : Nat} (hmem : (.ok e, count) ∈ reads calls { limits, source := s, clock }) :
    ∃ taken, Derives limits 0 taken e :=
  exists_derives_of_reads_from rfl (Assembly.start_stems limits) calls hmem

end Intake

end BasicEncoding
