import BasicEncoding.Proofs.Assembly.Buffers
import BasicEncoding.Proofs.Element.Caches
import BasicEncoding.Proofs.Intake.Found

/-! What an intake holds. Between two results nothing that was taken from the source is lost: it is
in the buffers, in the order in which it came, wherever a call is given up. Every result, a failure
as well, leaves the buffers fresh. -/
namespace BasicEncoding

/-- All octets of a source, behind its breaks as well. -/
def Source.octets (s : Source) : Octets :=
  s.flatMap fun
    | .data octets => octets
    | _ => []

theorem Source.octets_awake (s : Source) : s.awake.octets = s.octets := by
  induction s with
  | nil => rfl
  | cons event s ih =>
      cases event with
      | data octets => exact congrArg (octets ++ ·) ih
      | _ => exact ih

namespace Buffers

variable {limits : Limits} {b c d : Buffers} {octets more : Octets}

theorem pushAll_append (h : b.pushAll limits octets = some c)
    (hmore : c.pushAll limits more = some d) : b.pushAll limits (octets ++ more) = some d := by
  induction octets generalizing b with
  | nil =>
      cases h
      exact hmore
  | cons octet rest ih =>
      rw [List.cons_append, pushAll]
      rw [pushAll] at h
      split at h
      · exact ih h
      · cases h

end Buffers

namespace Assembly

/-- Octets that lead from an assembly to another without a result. The buffers are filled with them,
and what comes behind them leads to what it would lead to with them in front. -/
structure Absorbs (limits : Limits) (a : Assembly) (taken : Octets) (b : Assembly) : Prop where
  pushed : a.buffers.pushAll limits taken = some b.buffers
  outlook_eq : ∀ more, a.outlook limits (taken ++ more) = b.outlook limits more

variable {limits : Limits} {a b c : Assembly} {octets more : Octets}

theorem Absorbs.refl (limits : Limits) (a : Assembly) : a.Absorbs limits [] a :=
  ⟨rfl, fun _ => rfl⟩

theorem Absorbs.trans (h : a.Absorbs limits octets b) (hmore : b.Absorbs limits more c) :
    a.Absorbs limits (octets ++ more) c := by
  refine ⟨Buffers.pushAll_append h.pushed hmore.pushed, fun behind => ?_⟩
  rw [List.append_assoc, h.outlook_eq, hmore.outlook_eq]

theorem absorbs_of_feedAll (ha : a.Sound) {before : List Note}
    (h : (a.feedAll limits before octets).1.result = none) :
    a.Absorbs limits octets (a.feedAll limits before octets).1.after := by
  have hfed : FedAll limits a octets (a.feedAll limits before octets).1
      (a.feedAll limits before octets).2 := feedAll_spec ha before octets
  refine ⟨pushAll_of_feedAll ha h, fun behind => ?_⟩
  rw [hfed.outlook_eq, hfed.taken h, List.nil_append, Fed.outlook, h]

end Assembly

namespace Intake

/-- A run that starts with an assembly and a source. Given up, it leaves in the assembly what it
took from the source; any result leaves a fresh assembly. -/
inductive Takes (limits : Limits) (a : Assembly) (s : Source) (r : Run) : Prop
  | given_up {taken : Octets} (none : r.result = none)
      (source_eq : s.octets = taken ++ r.after.source.octets)
      (absorbed : a.Absorbs limits taken r.after.assembly)
      (sound : r.after.assembly.Sound) (limits_eq : r.after.limits = limits) :
      Takes limits a s r
  | ended {result : Except Failure Element} (some : r.result = some result)
      (restarts : r.after.assembly = .start) (limits_eq : r.after.limits = limits) :
      Takes limits a s r

variable {limits : Limits} {a : Assembly} {s : Source} {r : Run} {i : Intake}

theorem Takes.sound (h : Takes limits a s r) : r.after.assembly.Sound := by
  cases h with
  | given_up _ _ _ sound => exact sound
  | ended _ restarts =>
      rw [restarts]
      exact Assembly.start_sound

theorem Takes.limits_eq (h : Takes limits a s r) : r.after.limits = limits := by
  cases h <;> assumption

theorem Takes.prepend {b : Assembly} {t : Source} {taken : Octets} (h : Takes limits a s r)
    (hsource : t.octets = taken ++ s.octets) (habsorbed : b.Absorbs limits taken a) :
    Takes limits b t r := by
  cases h with
  | given_up none source_eq absorbed sound limits_eq =>
      refine .given_up none ?_ (habsorbed.trans absorbed) sound limits_eq
      rw [hsource, source_eq, List.append_assoc]
  | ended some restarts limits_eq => exact .ended some restarts limits_eq

theorem Takes.noted (h : Takes limits a s r) (notes : List Note) :
    Takes limits a s { r with notes } := by
  cases h with
  | given_up none source_eq absorbed sound limits_eq =>
      exact .given_up none source_eq absorbed sound limits_eq
  | ended some restarts limits_eq => exact .ended some restarts limits_eq

theorem runFrom_takes (ha : a.Sound) (patience : Patience) (clock : Nat) (before : List Note)
    (s : Source) : Takes limits a s (runFrom limits patience clock a before s) := by
  induction s generalizing clock a before with
  | nil => exact .ended rfl rfl rfl
  | cons event s ih =>
      rcases runFrom_event patience clock event s with
        ⟨octets, rfl⟩ | hbreak | ⟨hawake, later, hwaited⟩ | ⟨rest, hawake, hgivenUp⟩
      · have hfed : Assembly.FedAll limits a octets (a.feedAll limits before octets).1
            (a.feedAll limits before octets).2 := Assembly.feedAll_spec ha before octets
        have habsorbs := @Assembly.absorbs_of_feedAll limits a octets ha before
        rw [runFrom]
        generalize a.feedAll limits before octets = answer at hfed habsorbs
        obtain ⟨⟨after, result, notes⟩, left⟩ := answer
        cases result with
        | none => exact (ih hfed.tidy.sound clock notes.reverse).prepend rfl (habsorbs rfl)
        | some result =>
            have hstart : after = .start := hfed.tidy.restarts result rfl
            cases left <;> exact .ended rfl hstart rfl
      · obtain ⟨failure, hfailed⟩ := hbreak a
        rw [hfailed]
        exact .ended rfl rfl rfl
      · have hoctets : Source.octets (event :: s) = [] ++ Source.octets s := by
          rw [← Source.octets_awake, hawake, Source.octets_awake, List.nil_append]
        rw [hwaited]
        exact (ih ha later before).prepend hoctets (.refl limits a)
      · have hoctets : Source.octets (event :: s) = [] ++ rest.octets := by
          rw [← Source.octets_awake, ← hawake, Source.octets_awake, List.nil_append]
        rw [hgivenUp]
        exact .given_up rfl hoctets (.refl limits a) ha rfl

theorem run_takes (h : i.assembly.Sound) (patience : Patience) :
    Takes i.limits i.assembly i.source (i.run patience) :=
  runFrom_takes h _ _ _ _

theorem poll_takes (h : i.assembly.Sound) (n : Nat) :
    Takes i.limits i.assembly i.source (i.poll n) := by
  induction n generalizing i with
  | zero => exact .given_up rfl (List.nil_append _).symm (.refl i.limits i.assembly) h rfl
  | succ n ih =>
      rw [poll]
      dsimp only
      cases run_takes h .never with
      | ended some restarts limits_eq =>
          rw [some]
          exact .ended some restarts limits_eq
      | given_up none source_eq absorbed sound limits_eq =>
          have hlater := ih sound
          rw [limits_eq] at hlater
          rw [none]
          exact (hlater.prepend source_eq absorbed).noted _

theorem call_takes (h : i.assembly.Sound) (c : Call) :
    Takes i.limits i.assembly i.source (c.run i) := by
  cases c with
  | polls count => exact poll_takes h count
  | wait patience => exact run_takes h patience

theorem restarts_of_result (h : i.assembly.Sound) {c : Call} {result : Except Failure Element}
    (hresult : (c.run i).result = some result) : (c.run i).after.assembly = .start := by
  cases call_takes h c with
  | ended _ restarts _ => exact restarts
  | given_up none =>
      rw [none] at hresult
      cases hresult

theorem asked_sound (h : i.assembly.Sound) (calls : List Call) :
    (asked calls i).assembly.Sound ∧ (asked calls i).limits = i.limits := by
  induction calls generalizing i with
  | nil => exact ⟨h, rfl⟩
  | cons c calls ih =>
      have hcall := call_takes h c
      obtain ⟨hsound, hlimits⟩ := ih hcall.sound
      exact ⟨hsound, hlimits.trans hcall.limits_eq⟩

/-- Calls that are given up leave in the assembly what they took. -/
theorem asked_takes (h : i.assembly.Sound) {calls : List Call} (hnone : reads calls i = []) :
    ∃ taken, i.source.octets = taken ++ (asked calls i).source.octets ∧
      i.assembly.Absorbs i.limits taken (asked calls i).assembly := by
  induction calls generalizing i with
  | nil => exact ⟨[], rfl, .refl i.limits i.assembly⟩
  | cons c calls ih =>
      rw [reads] at hnone
      cases call_takes h c with
      | ended some =>
          rw [some] at hnone
          cases hnone
      | @given_up taken none source_eq absorbed sound limits_eq =>
          rw [none] at hnone
          obtain ⟨more, hmore, habsorbed⟩ := ih sound hnone
          rw [limits_eq] at habsorbed
          refine ⟨taken ++ more, ?_, absorbed.trans habsorbed⟩
          rw [source_eq, hmore, List.append_assoc]
          rfl

/-- Calls behind which nothing was taken: the last of them, if there is one, has a result. -/
def Settled (calls : List Call) (i : Intake) : Prop :=
  calls = [] ∨ ∃ front c, calls = front ++ [c] ∧ (c.run (asked front i)).result ≠ none

/-- A result of an intake leaves it with fresh buffers, whatever the source and however often it was
given up. Behind such a result, or at the outset, the buffers are those that the octets taken since
lead to; they are consistent and hold these octets, so the intake is busy if and only if there are
some. -/
theorem buffers_hold_what_was_taken (i : Intake) (hstart : i.assembly = .start)
    (before : List Call) :
    (∀ call result, (Call.run call (asked before i)).result = some result →
      (Call.run call (asked before i)).after.assembly.buffers = Buffers.fresh) ∧
    (Settled before i →
      ∀ since : List Call, reads since (asked before i) = [] →
        ∃ taken,
          (asked before i).source.octets =
            taken ++ (asked since (asked before i)).source.octets ∧
          Buffers.fresh.pushAll i.limits taken =
            some (asked since (asked before i)).assembly.buffers ∧
          (asked since (asked before i)).assembly.buffers.Consistent ∧
          (asked since (asked before i)).assembly.buffers.held = taken ∧
          ((asked since (asked before i)).assembly.isBusy = true ↔ taken ≠ [])) := by
  have hsound : i.assembly.Sound := by
    rw [hstart]
    exact Assembly.start_sound
  refine ⟨fun call result hresult => ?_, fun hsettled since hnone => ?_⟩
  · rw [restarts_of_result (asked_sound hsound before).1 hresult]
    rfl
  · have hfresh : (asked before i).assembly = .start := by
      rcases hsettled with rfl | ⟨front, c, rfl, hresult⟩
      · exact hstart
      · obtain ⟨result, hresult⟩ := Option.ne_none_iff_exists'.mp hresult
        unfold asked
        rw [List.foldl_append]
        exact restarts_of_result (asked_sound hsound front).1 hresult
    obtain ⟨hasked, hlimits⟩ := asked_sound hsound before
    obtain ⟨taken, htaken, hpushed, -⟩ := asked_takes hasked hnone
    rw [hfresh, hlimits] at hpushed
    obtain ⟨hconsistent, hheld⟩ := Buffers.pushAll_holds Buffers.fresh_consistent hpushed
    have hnil : Buffers.fresh.held = [] := rfl
    rw [hnil, List.nil_append] at hheld
    refine ⟨taken, htaken, hpushed, hconsistent, hheld, ?_⟩
    rw [← Assembly.buffers_isMidElement, Buffers.isMidElement_iff hconsistent, hheld]

/-- An element, and another that is open when its child's contents fail to come. -/
def cutSource : Source :=
  [.data [0x05, 0x00, 0x30, 0x80], .stall, .data [0x04, 0x02, 0xAA], .stall, .close]

/-- Given up twice behind the first element, an intake holds five octets of the second; the end of
the source leaves nothing of them. -/
theorem cutSource_held :
    Settled [.wait .endless] { limits := {}, source := cutSource } ∧
      reads [.polls 1, .polls 1]
        (asked [.wait .endless] { limits := {}, source := cutSource }) = [] ∧
      (asked [.polls 1, .polls 1]
        (asked [.wait .endless] { limits := {}, source := cutSource })).assembly.buffers.held =
          [0x30, 0x80, 0x04, 0x02, 0xAA] ∧
      (Call.run (.wait .endless) (asked [.wait .endless, .polls 1, .polls 1]
        { limits := {}, source := cutSource })).after.assembly.buffers = Buffers.fresh := by
  have hsettled : Settled [.wait .endless] { limits := {}, source := cutSource } :=
    .inr ⟨[], .wait .endless, rfl, nofun⟩
  obtain ⟨-, hheld⟩ := buffers_hold_what_was_taken { limits := {}, source := cutSource } rfl
    [.wait .endless]
  obtain ⟨hfresh, -⟩ := buffers_hold_what_was_taken { limits := {}, source := cutSource } rfl
    [.wait .endless, .polls 1, .polls 1]
  refine ⟨hsettled, rfl, ?_, hfresh (.wait .endless) (.error (.truncated _)) rfl⟩
  obtain ⟨taken, htaken, -, -, hsame, -⟩ := hheld hsettled [.polls 1, .polls 1] rfl
  have hsplit : [0x30, 0x80, 0x04, 0x02, 0xAA] = taken ++ [] := htaken
  rw [hsame, hsplit, List.append_nil]

end Intake

end BasicEncoding
