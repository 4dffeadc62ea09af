import BasicEncoding.Proofs.Element.Caches
import BasicEncoding.Proofs.Intake.Found
import BasicEncoding.Proofs.Parse.Limits

/-! What limits do to an intake. The depth of an element is the number of opened ones there, and one
more for each level inside contents that were collected whole; an octet that no limit refuses leads
to the same under limits that are no stricter, and so does a run. -/
namespace BasicEncoding

namespace Assembly

variable {c c' : Limits} {opened : List Opened}

def Fed.answer (fed : Fed) : Assembly × Option (Except Failure Element) :=
  (fed.after, fed.result)

/-- The second octet fed leads to what the first does, unless a limit refuses the element there. -/
def Fed.Relaxes (fed fed' : Fed) : Prop :=
  (∃ result, fed.result = some result ∧ Limited result) ∨ fed'.answer = fed.answer

theorem Fed.Relaxes.refl (fed : Fed) : fed.Relaxes fed :=
  .inr rfl

def finished (opened : List Opened) : Except Failure Element → Fed
  | .ok e => attach opened e []
  | .error failure => .failed failure []

theorem answer_complete (limits : Limits) (identifier : Identifier) (header contents : Octets)
    (notes : List Note) :
    (complete limits opened identifier header contents notes).answer =
      (finished opened (Parse.contentsResult (Parse.elementAt limits (opened.length + 1))
        identifier header contents)).answer := by
  unfold complete
  dsimp only
  rw [Parse.outcome_ofContents]
  cases Parse.contentsResult (Parse.elementAt limits (opened.length + 1)) identifier header
    contents with
  | ok e => cases opened <;> rfl
  | error failure => rfl

theorem relaxes_complete (h : c ≤ c') (identifier : Identifier) (header contents : Octets)
    (notes notes' : List Note) :
    (complete c opened identifier header contents notes).Relaxes
      (complete c' opened identifier header contents notes') := by
  rcases Parse.relaxes_contentsResult (Parse.elementAt_advances c (opened.length + 1))
    (Parse.elementAt_advances c' (opened.length + 1)) (Parse.relaxes_elementAt h _) identifier
    header contents with ⟨failure, hfailed, hlimit⟩ | hsame
  · have hanswer := @answer_complete opened c identifier header contents notes
    rw [hfailed] at hanswer
    exact .inl ⟨.error failure, (Prod.mk.inj hanswer).2, failure, rfl, hlimit⟩
  · refine .inr ?_
    rw [answer_complete, answer_complete, hsame]

theorem relaxes_behindHeader (h : c ≤ c') (header : Header) (octets : Octets) :
    (behindHeader c opened header octets).Relaxes (behindHeader c' opened header octets) := by
  unfold behindHeader
  dsimp only
  cases header.length with
  | indefinite => exact .refl _
  | definite count =>
      dsimp only
      rcases Parse.relaxes_checkContentLength h count with ⟨failure, hfailed, hlimit⟩ | hsame
      · rw [hfailed]
        exact .inl ⟨.error failure, rfl, failure, rfl, hlimit⟩
      · rw [hsame]
        cases c.checkContentLength count with
        | error failure => exact .inr rfl
        | ok _ =>
            dsimp only
            split
            · exact relaxes_complete h _ _ _ _ _
            · exact .refl _

theorem relaxes_feedHeader (h : c ≤ c') (scan : HeaderScan) (octet : UInt8) :
    (feedHeader c opened scan octet).Relaxes (feedHeader c' opened scan octet) := by
  unfold feedHeader
  split
  · exact .refl _
  · exact relaxes_behindHeader h _ _
  · exact .refl _

theorem relaxes_feed (h : c ≤ c') (a : Assembly) (octet : UInt8) :
    (feed c a octet).Relaxes (feed c' a octet) := by
  obtain ⟨opened, phase⟩ := a
  unfold feed
  dsimp only
  cases phase with
  | contents identifier header received missing =>
      dsimp only
      split
      · exact relaxes_complete h _ _ _ _ _
      · exact .refl _
  | marker => exact .refl _
  | header scan =>
      dsimp only
      split
      · split
        · exact .refl _
        · by_cases hdepth : opened.length ≤ c.maxDepth.toNat
          · have hlooser : opened.length ≤ c'.maxDepth.toNat :=
              Nat.le_trans hdepth (UInt64.le_iff_toNat_le.mp h.1)
            rw [Limits.checkDepth_eq_ok_iff.mpr hdepth, Limits.checkDepth_eq_ok_iff.mpr hlooser]
            exact relaxes_feedHeader h scan octet
          · have hdeep : c.checkDepth opened.length = .error (.depthLimit c.maxDepth) :=
              if_pos (Nat.lt_of_not_le hdepth)
            rw [hdeep]
            exact .inl ⟨_, rfl, _, rfl, rfl⟩
      · exact relaxes_feedHeader h scan octet

/-- Any number of octets: the octets left over are the same, too. -/
theorem relaxes_feedAll (h : c ≤ c') (a : Assembly) (before before' : List Note)
    (octets : Octets) :
    (∃ result, (a.feedAll c before octets).1.result = some result ∧ Limited result) ∨
      (a.feedAll c' before' octets).1.answer = (a.feedAll c before octets).1.answer ∧
        (a.feedAll c' before' octets).2 = (a.feedAll c before octets).2 := by
  induction octets generalizing a before before' with
  | nil => exact .inr ⟨rfl, rfl⟩
  | cons octet rest ih =>
      rw [feedAll, feedAll]
      rcases relaxes_feed h a octet with ⟨result, hresult, hlimited⟩ | hsame
      · rw [hresult]
        exact .inl ⟨result, rfl, hlimited⟩
      · obtain ⟨hafter, hresult⟩ := Prod.mk.inj hsame
        rw [hresult, hafter]
        cases (feed c a octet).result with
        | none => exact ih _ _ _
        | some result => exact .inr ⟨rfl, rfl⟩

end Assembly

namespace Intake

variable {c c' : Limits} {i : Intake}

/-- The second run ends as the first does, with its own limits, unless a limit refuses an element in
the first. -/
def Run.Relaxes (c c' : Limits) (r r' : Run) : Prop :=
  (∃ result, r.result = some result ∧ Limited result) ∨
    r.after.limits = c ∧ r'.result = r.result ∧ r'.after = { r.after with limits := c' }

theorem relaxes_runFrom (h : c ≤ c') (patience : Patience) (clock : Nat) (a : Assembly)
    (before before' : List Note) (s : Source) :
    Run.Relaxes c c' (runFrom c patience clock a before s)
      (runFrom c' patience clock a before' s) := by
  induction s generalizing clock a before before' with
  | nil => exact .inr ⟨rfl, rfl, rfl⟩
  | cons event s ih =>
      rcases runFrom_event patience clock event s with
        ⟨octets, rfl⟩ | hbreak | ⟨-, later, hwaited⟩ | ⟨rest, -, hgivenUp⟩
      · have hfed := Assembly.relaxes_feedAll h a before before' octets
        rw [runFrom, runFrom]
        generalize a.feedAll c before octets = answer at hfed
        generalize a.feedAll c' before' octets = answer' at hfed
        obtain ⟨⟨after, result, notes⟩, left⟩ := answer
        obtain ⟨⟨after', result', notes'⟩, left'⟩ := answer'
        rcases hfed with ⟨found, hfound, hlimited⟩ | ⟨hanswer, hleft⟩
        · obtain rfl : result = some found := hfound
          cases left <;> exact .inl ⟨found, rfl, hlimited⟩
        · obtain ⟨rfl, rfl⟩ := Prod.mk.inj hanswer
          obtain rfl : left' = left := hleft
          cases result' with
          | none => exact ih _ _ _ _
          | some result => cases left' <;> exact .inr ⟨rfl, rfl, rfl⟩
      · obtain ⟨failure, hfailed⟩ := hbreak a
        rw [hfailed, hfailed]
        exact .inr ⟨rfl, rfl, rfl⟩
      · rw [hwaited, hwaited]
        exact ih _ _ _ _
      · rw [hgivenUp, hgivenUp]
        exact .inr ⟨rfl, rfl, rfl⟩

theorem relaxes_run (h : c ≤ c') (hlimits : i.limits = c) (patience : Patience) :
    Run.Relaxes c c' (i.run patience) (Intake.run { i with limits := c' } patience) := by
  rw [run, run, hlimits]
  exact relaxes_runFrom h _ _ _ _ _ _

theorem relaxes_poll (h : c ≤ c') (hlimits : i.limits = c) (n : Nat) :
    Run.Relaxes c c' (i.poll n) (Intake.poll { i with limits := c' } n) := by
  induction n generalizing i with
  | zero => exact .inr ⟨hlimits, rfl, rfl⟩
  | succ n ih =>
      have hrun := relaxes_run h hlimits .never
      rw [poll, poll]
      dsimp only
      rcases hrun with ⟨result, hresult, hlimited⟩ | ⟨hkept, hresult, hafter⟩
      · rw [hresult]
        exact .inl ⟨result, hresult, hlimited⟩
      · rw [hresult, hafter]
        cases hfirst : (i.run .never).result with
        | some result =>
            refine .inr ⟨hkept, ?_, hafter⟩
            rw [hresult]
        | none => exact ih hkept

theorem relaxes_call (h : c ≤ c') (hlimits : i.limits = c) (call : Call) :
    Run.Relaxes c c' (call.run i) (call.run { i with limits := c' }) := by
  cases call with
  | polls count => exact relaxes_poll h hlimits count
  | wait patience => exact relaxes_run h hlimits patience

theorem reads_relaxed (h : c ≤ c') (hlimits : i.limits = c) (calls : List Call)
    (hnone : ∀ answer ∈ reads calls i, ¬Limited answer.1) :
    reads calls { i with limits := c' } = reads calls i ∧
      asked calls { i with limits := c' } = { asked calls i with limits := c' } := by
  induction calls generalizing i with
  | nil => exact ⟨rfl, rfl⟩
  | cons call calls ih =>
      rw [reads, reads]
      rw [reads] at hnone
      dsimp only at hnone ⊢
      have hasked : ∀ j : Intake, asked (call :: calls) j = asked calls (call.run j).after :=
        fun _ => rfl
      rw [hasked, hasked]
      rcases relaxes_call h hlimits call with ⟨result, hresult, hlimited⟩ |
        ⟨hkept, hresult, hafter⟩
      · rw [hresult] at hnone
        exact absurd hlimited (hnone _ List.mem_cons_self)
      · rw [hresult, hafter]
        cases hfirst : (call.run i).result with
        | none =>
            rw [hfirst] at hnone
            exact ih hkept hnone
        | some result =>
            rw [hfirst] at hnone
            obtain ⟨hreads, hafter⟩ :=
              ih hkept fun answer hmem => hnone answer (List.mem_cons_of_mem _ hmem)
            dsimp only
            rw [hreads]
            exact ⟨rfl, hafter⟩

end Intake

namespace Limits

/-- Limits bound what is read under them and change nothing else. Every node is within them, and
what none of them refused comes out the same, with the same octets taken, under limits that are no
stricter: a read that waits, and calls to an intake up to the first that a limit refuses, on any
source. -/
theorem bound_and_only_refuse {c c' : Limits} (h : c ≤ c') :
    (∀ s : Source,
      (∀ e, (s.read c).result = .ok e → e.AtNodes (Element.Within c) 0) ∧
      (¬Limited (s.read c).result →
        (s.read c').result = (s.read c).result ∧ (s.read c').after = (s.read c).after)) ∧
    ∀ (s : Source) (clock : Nat) (calls : List Intake.Call),
      (∀ e count, (.ok e, count) ∈ Intake.reads calls { limits := c, source := s, clock } →
        e.AtNodes (Element.Within c) 0) ∧
      ((∀ answer ∈ Intake.reads calls { limits := c, source := s, clock }, ¬Limited answer.1) →
        Intake.reads calls { limits := c', source := s, clock } =
            Intake.reads calls { limits := c, source := s, clock } ∧
          Intake.asked calls { limits := c', source := s, clock } =
            { Intake.asked calls { limits := c, source := s, clock } with limits := c' }) := by
  refine ⟨fun s => ⟨fun e hread => ?_, fun hnot => ?_⟩,
    fun s clock calls => ⟨fun e count hmem => ?_, fun hnone => ?_⟩⟩
  · obtain ⟨taken, -, -, -, -, hderives⟩ := Source.exists_derives_of_read hread
    exact Element.within_of_derives hderives
  · exact (Source.read_relaxed h s).resolve_left hnot
  · obtain ⟨taken, hderives⟩ := Intake.exists_derives_of_reads hmem
    exact Element.within_of_derives hderives
  · exact Intake.reads_relaxed h rfl calls hnone

/-- One level below the outermost element, and three octets of contents. -/
def tight : Limits := ⟨1, 3⟩

/-- An element that is just as deep and as long, and another a level deeper. -/
def tightSource : Source :=
  [.data [0x30, 0x03, 0x04], .stall, .data [0x01, 0xAA],
    .data [0x30, 0x80, 0x30, 0x80, 0x05, 0x00, 0x00, 0x00, 0x00, 0x00]]

def tightElement : Element :=
  (Element.ofChildren (.universal true Universal.sequence) .definite
    [(Element.octetString [0xAA] "").withRaw [0x04, 0x01, 0xAA]]).withRaw
      [0x30, 0x03, 0x04, 0x01, 0xAA]

/-- The first is read by both readers under the default limits as under the tight ones, which refuse
the second alone. -/
theorem tight_bounds_and_only_refuses :
    tight ≤ {} ∧
      ((tightSource.read {}).result = .ok tightElement ∧
        tightElement.AtNodes (Element.Within tight) 0) ∧
      Intake.reads [.polls 1, .wait .endless] { limits := {}, source := tightSource } =
        [(.ok tightElement, 10)] ∧
      Limited ((tightSource.read tight).after.read tight).result ∧
      ¬Limited ((tightSource.read tight).after.read {}).result := by
  have hle : tight ≤ {} := by
    constructor <;> decide
  obtain ⟨hsource, hintake⟩ := bound_and_only_refuse hle
  have hread : (tightSource.read tight).result = .ok tightElement := rfl
  have hreads : Intake.reads [.polls 1, .wait .endless] { limits := tight, source := tightSource } =
      [(.ok tightElement, 10)] := rfl
  have hok : ∀ e : Element, ¬Limited (.ok e : Except Failure Element) := by
    rintro e ⟨_, ⟨⟩, _⟩
  obtain ⟨hwithin, hsame⟩ := hsource tightSource
  refine ⟨hle, ⟨?_, hwithin _ hread⟩, ?_, ⟨_, rfl, rfl⟩, hok _⟩
  · rw [(hsame (hread ▸ hok _)).1, hread]
  · rw [← hreads]
    refine ((hintake tightSource 0 _).2 fun answer hanswer => ?_).1
    rw [hreads, List.mem_singleton] at hanswer
    rw [hanswer]
    exact hok _

end Limits

end BasicEncoding
