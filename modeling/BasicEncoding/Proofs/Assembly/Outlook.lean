import BasicEncoding.Assembly
import BasicEncoding.Proofs.Parse.Outcome

/-! What an assembly still comes to. For every assembly there is a parse of the octets to come: that
of the element at its phase, followed by what each opened element asks for, innermost first. An
octet fed to the assembly is an octet taken from that parse. -/
namespace BasicEncoding.Assembly

open Parse (elementAt elementAt_advances)

/-- What opened elements make of a finished element and the octets behind it. -/
def finish (limits : Limits) : List Opened → Element → Octets → Outcome Element
  | [], e, octets => .done e octets
  | o :: outer, e, octets =>
    ((elementAt limits (outer.length + 1)).untilMarker.run octets).outcome.andThen
      fun children rest =>
        finish limits outer
          (Parse.closed o.identifier o.header (o.children.reverse ++ e :: children)) rest

/-- What becomes of the last children of the innermost opened element, when its marker is taken. -/
def settle (limits : Limits) : List Opened → List Element → Octets → Outcome Element
  | [], _, octets => ((elementAt limits 0).run octets).outcome
  | o :: outer, children, octets =>
    finish limits outer (Parse.closed o.identifier o.header (o.children.reverse ++ children)) octets

def await (limits : Limits) (opened : List Opened) (octets : Octets) : Outcome Element :=
  match opened with
  | [] => ((elementAt limits 0).run octets).outcome
  | o :: outer =>
    ((elementAt limits (outer.length + 1)).untilMarker.run octets).outcome.andThen
      (settle limits (o :: outer))

def enter (limits : Limits) (opened : List Opened) (found : Header × Octets) (octets : Octets) :
    Outcome Element :=
  ((Parse.behindHeader limits (elementAt limits (opened.length + 1)) found.1 found.2).run
    octets).outcome.andThen (finish limits opened)

/-- What the octets to come lead to. -/
def outlook (limits : Limits) (a : Assembly) (octets : Octets) : Outcome Element :=
  match a.phase with
  | .header scan =>
    if scan.isFresh then await limits a.opened octets
    else (Parse.scanHeader scan octets).outcome.andThen (enter limits a.opened)
  | .contents identifier header received missing =>
    if octets.length < missing then
      .short (.content (received.length + missing) (received.length + octets.length))
    else
      (Outcome.ended
        (Parse.contentsResult (elementAt limits (a.opened.length + 1)) identifier header
          (received.reverse ++ octets.take missing)) (octets.drop missing)).andThen
        (finish limits a.opened)
  | .marker => (Parse.behindZero octets).andThen (settle limits a.opened)

def Fed.outlook (limits : Limits) (fed : Fed) (rest : Octets) : Outcome Element :=
  match fed.result with
  | none => fed.after.outlook limits rest
  | some result => .ended result rest

/-- A scan without octets is at its start, and contents miss something. -/
def Sound (a : Assembly) : Prop :=
  match a.phase with
  | .header scan => scan.isFresh = true → scan = .start
  | .contents _ _ _ missing => 0 < missing
  | .marker => True

variable {limits : Limits} {opened : List Opened}

theorem start_sound : start.Sound := fun _ => rfl

theorem start_outlook (octets : Octets) :
    start.outlook limits octets = ((elementAt limits 0).run octets).outcome := rfl

/-- With nothing to come, the parse ends in the gap of the assembly. -/
theorem outlook_nil {a : Assembly} (h : a.Sound) : a.outlook limits [] = .short a.gap := by
  obtain ⟨opened, phase⟩ := a
  cases phase with
  | header scan =>
      unfold outlook gap
      dsimp only
      by_cases hfresh : scan.isFresh = true
      · have hscan : scan = .start := h hfresh
        rw [if_pos hfresh, hscan]
        cases opened with
        | nil =>
            rw [await, Parse.outcome_elementAt (Nat.zero_le _)]
            rfl
        | cons o outer => rfl
      · rw [if_neg hfresh, if_neg (fun hboth => hfresh hboth.1)]
        rfl
  | contents identifier header received missing =>
      have hmissing : 0 < missing := h
      exact if_pos hmissing
  | marker => rfl

theorem finish_cons (o : Opened) (outer : List Opened) (e : Element) (octets : Octets) :
    finish limits (o :: outer) e octets =
      await limits ({ o with children := e :: o.children } :: outer) octets := by
  rw [finish, await]
  congr 1
  funext children rest
  rw [settle, List.reverse_cons, List.append_assoc, List.singleton_append]

theorem await_element {octet : UInt8} (h : octet = 0 → opened = []) (rest : Octets) :
    await limits opened (octet :: rest) =
      ((elementAt limits opened.length).run (octet :: rest)).outcome.andThen
        (finish limits opened) := by
  cases opened with
  | nil =>
      change ((elementAt limits 0).run _).outcome = ((elementAt limits 0).run _).outcome.andThen _
      cases ((elementAt limits 0).run (octet :: rest)).outcome <;> rfl
  | cons o outer =>
      have hne : octet ≠ 0 := fun hzero => List.cons_ne_nil _ _ (h hzero)
      rw [await, Parse.untilMarker_cons (elementAt_advances limits _) hne, Outcome.andThen_assoc,
        List.length_cons]
      congr 1
      funext e behind
      rw [Outcome.map_eq_andThen, Outcome.andThen_assoc, finish]
      rfl

theorem attach_outlook (e : Element) (notes : List Note) (rest : Octets) :
    (attach opened e notes).outlook limits rest = finish limits opened e rest := by
  cases opened with
  | nil => rfl
  | cons o outer =>
      rw [finish_cons]
      rfl

theorem complete_outlook (identifier : Identifier) (header contents : Octets) (notes : List Note)
    (rest : Octets) :
    (complete limits opened identifier header contents notes).outlook limits rest =
      (Outcome.ended (Parse.contentsResult (elementAt limits (opened.length + 1)) identifier header
        contents) rest).andThen (finish limits opened) := by
  unfold complete
  dsimp only
  rw [Parse.outcome_ofContents]
  cases Parse.contentsResult (elementAt limits (opened.length + 1)) identifier header contents with
  | ok e => exact attach_outlook e _ rest
  | error failure => rfl

theorem behindHeader_outlook (header : Header) (octets rest : Octets) :
    (behindHeader limits opened header octets).outlook limits rest =
      enter limits opened (header, octets) rest := by
  unfold behindHeader enter
  dsimp only
  cases hlength : header.length with
  | indefinite =>
      rw [Parse.outcome_behindHeader_indefinite hlength, Outcome.map_eq_andThen,
        Outcome.andThen_assoc]
      rfl
  | definite count =>
      rw [Parse.outcome_behindHeader_definite hlength]
      dsimp only
      cases hcheck : limits.checkContentLength count with
      | error failure => rfl
      | ok _ =>
          change _ = (((Parse.content count.toNat).run rest).outcome.andThen _).andThen _
          rw [Parse.outcome_content]
          by_cases hzero : count = 0
          · -- no octet is fed for empty contents: the element is complete behind its header
            subst hzero
            dsimp only
            have hnone : ¬rest.length < (0 : UInt64).toNat := Nat.not_lt_zero _
            rw [if_pos rfl, complete_outlook, if_neg hnone]
            rfl
          · dsimp only
            rw [if_neg hzero]
            unfold Fed.outlook outlook
            dsimp only [List.length_nil, List.reverse_nil]
            split
            · rw [Nat.zero_add, Nat.zero_add]
              rfl
            · rfl

theorem isFresh_push (scan : HeaderScan) (octet : UInt8) :
    (scan.push octet).2.isFresh = false := by
  have hseen := HeaderScan.octets_push scan octet
  unfold HeaderScan.octets at hseen
  rw [HeaderScan.isFresh, List.isEmpty_eq_false_iff]
  intro hnil
  rw [hnil] at hseen
  exact List.append_ne_nil_of_right_ne_nil _ (List.cons_ne_nil _ _) hseen.symm

theorem feedHeader_outlook (scan : HeaderScan) (octet : UInt8) (rest : Octets) :
    (feedHeader limits opened scan octet).outlook limits rest =
      (Parse.scanHeader scan (octet :: rest)).outcome.andThen (enter limits opened) := by
  have hfresh := isFresh_push scan octet
  unfold feedHeader
  rw [Parse.scanHeader]
  cases hpush : scan.push octet with
  | mk answer next =>
      rw [hpush] at hfresh
      cases answer with
      | error defect => rfl
      | ok found =>
          cases found with
          | some header => exact behindHeader_outlook header next.octets rest
          | none =>
              unfold Fed.outlook outlook
              dsimp only
              rw [if_neg (by rw [hfresh]; exact Bool.false_ne_true)]

theorem await_checked (octet : UInt8) (h : octet = 0 → opened = []) (rest : Octets) :
    await limits opened (octet :: rest) =
      match limits.checkDepth opened.length with
      | .error failure => .refused failure rest
      | .ok () =>
        (Parse.scanHeader .start (octet :: rest)).outcome.andThen (enter limits opened) := by
  rw [await_element h]
  by_cases hdepth : opened.length ≤ limits.maxDepth.toNat
  · rw [Limits.checkDepth_eq_ok_iff.mpr hdepth, Parse.outcome_elementAt hdepth,
      Outcome.andThen_assoc]
    rfl
  · have hlt : limits.maxDepth.toNat < opened.length := Nat.lt_of_not_le hdepth
    rw [Parse.elementAt_of_lt hlt, Limits.checkDepth, if_pos hlt]
    rfl

theorem contents_outlook (identifier : Identifier) (header received : Octets) {missing : Nat}
    (h : 0 < missing) (octet : UInt8) (rest : Octets) :
    outlook limits ⟨opened, .contents identifier header received missing⟩ (octet :: rest) =
      (feed limits ⟨opened, .contents identifier header received missing⟩ octet).outlook limits
        rest := by
  obtain ⟨more, rfl⟩ : ∃ more, missing = more + 1 := ⟨missing - 1, by omega⟩
  cases more with
  | zero =>
      have hlong : ¬(octet :: rest).length < 1 := by
        rw [List.length_cons]
        omega
      have hlast : feed limits ⟨opened, .contents identifier header received 1⟩ octet =
          complete limits opened identifier header (octet :: received).reverse [] := rfl
      rw [hlast, complete_outlook, List.reverse_cons]
      unfold outlook
      dsimp only
      rw [Nat.zero_add, if_neg hlong]
      rfl
  | succ more =>
      have hlast : ¬more + 1 + 1 ≤ 1 := by omega
      unfold feed
      dsimp only
      rw [if_neg hlast]
      unfold Fed.outlook outlook
      dsimp only
      rw [List.length_cons, List.length_cons, List.reverse_cons, List.append_assoc,
        List.take_succ_cons, List.drop_succ_cons, List.singleton_append, Nat.add_sub_cancel,
        Nat.add_right_comm _ 1 rest.length, Nat.add_right_comm _ 1 (more + 1)]
      simp only [Nat.add_lt_add_iff_right]
      rfl

theorem marker_outlook (octet : UInt8) (rest : Octets) :
    outlook limits ⟨opened, .marker⟩ (octet :: rest) =
      (feed limits ⟨opened, .marker⟩ octet).outlook limits rest := by
  unfold outlook feed Parse.behindZero
  dsimp only
  by_cases hzero : octet = 0
  · rw [if_pos hzero, if_neg (not_not_intro hzero)]
    cases opened with
    | nil => rfl
    | cons o outer =>
        dsimp only
        rw [attach_outlook, Opened.close]
        change settle limits (o :: outer) [] rest = _
        rw [settle, List.append_nil]
  · rw [if_neg hzero, if_pos hzero]
    rfl

theorem fresh_outlook (octet : UInt8) (rest : Octets) :
    await limits opened (octet :: rest) =
      (feed limits ⟨opened, .header .start⟩ octet).outlook limits rest := by
  have hstart : HeaderScan.start.isFresh = true := rfl
  unfold feed
  dsimp only
  rw [if_pos hstart]
  by_cases hmarker : octet = 0 ∧ ¬opened.isEmpty = true
  · rw [if_pos hmarker]
    obtain ⟨rfl, hopened⟩ := hmarker
    cases opened with
    | nil => exact absurd rfl hopened
    | cons o outer =>
        rw [await, Parse.untilMarker_zero]
        rfl
  · have hzero : octet = 0 → opened = [] := by
      intro heq
      cases opened with
      | nil => rfl
      | cons o outer => exact absurd ⟨heq, nofun⟩ hmarker
    rw [if_neg hmarker, await_checked octet hzero]
    cases limits.checkDepth opened.length with
    | error failure => rfl
    | ok _ => exact (feedHeader_outlook .start octet rest).symm

/-- An octet fed is an octet taken from the parse. -/
theorem outlook_cons {a : Assembly} (h : a.Sound) (octet : UInt8) (rest : Octets) :
    a.outlook limits (octet :: rest) = (feed limits a octet).outlook limits rest := by
  obtain ⟨opened, phase⟩ := a
  cases phase with
  | header scan =>
      by_cases hfresh : scan.isFresh = true
      · have hscan : scan = .start := h hfresh
        subst hscan
        exact fresh_outlook octet rest
      · unfold outlook feed
        dsimp only
        rw [if_neg hfresh, if_neg hfresh, feedHeader_outlook]
  | contents identifier header received missing =>
      exact contents_outlook identifier header received h octet rest
  | marker => exact marker_outlook octet rest

/-- What feeding leaves is sound, and a result leaves nothing of the element. -/
structure Fed.Tidy (fed : Fed) : Prop where
  sound : fed.after.Sound
  restarts : ∀ result, fed.result = some result → fed.after = start

theorem failed_tidy (failure : Failure) (notes : List Note) : (Fed.failed failure notes).Tidy :=
  ⟨start_sound, fun _ _ => rfl⟩

theorem attach_tidy (e : Element) (notes : List Note) : (attach opened e notes).Tidy := by
  cases opened with
  | nil => exact ⟨start_sound, fun _ _ => rfl⟩
  | cons o outer => exact ⟨fun _ => rfl, nofun⟩

theorem complete_tidy (identifier : Identifier) (header contents : Octets) (notes : List Note) :
    (complete limits opened identifier header contents notes).Tidy := by
  unfold complete
  dsimp only
  split
  · exact attach_tidy _ _
  · exact failed_tidy _ _
  · exact failed_tidy _ _

theorem behindHeader_tidy (header : Header) (octets : Octets) :
    (behindHeader limits opened header octets).Tidy := by
  unfold behindHeader
  dsimp only
  cases header.length with
  | indefinite => exact ⟨fun _ => rfl, nofun⟩
  | definite count =>
      dsimp only
      cases limits.checkContentLength count with
      | error failure => exact failed_tidy _ _
      | ok _ =>
          dsimp only
          by_cases hzero : count = 0
          · rw [if_pos hzero]
            exact complete_tidy _ _ _ _
          · rw [if_neg hzero]
            refine ⟨?_, nofun⟩
            apply Nat.pos_of_ne_zero
            intro hnone
            exact hzero (UInt64.toNat_inj.mp hnone)

theorem feedHeader_tidy (scan : HeaderScan) (octet : UInt8) :
    (feedHeader limits opened scan octet).Tidy := by
  have hfresh := isFresh_push scan octet
  unfold feedHeader
  split
  · next next heq =>
    refine ⟨?_, nofun⟩
    intro hstart
    rw [heq] at hfresh
    exact absurd hstart (by rw [hfresh]; exact Bool.false_ne_true)
  · exact behindHeader_tidy _ _
  · exact failed_tidy _ _

theorem feed_tidy (a : Assembly) (octet : UInt8) : (feed limits a octet).Tidy := by
  obtain ⟨opened, phase⟩ := a
  unfold feed
  dsimp only
  cases phase with
  | contents identifier header received missing =>
      dsimp only
      split
      · exact complete_tidy _ _ _ _
      · next hmore =>
        refine ⟨?_, nofun⟩
        change 0 < missing - 1
        omega
  | marker =>
      dsimp only
      split
      · exact failed_tidy _ _
      · split
        · exact ⟨start_sound, nofun⟩
        · exact attach_tidy _ _
  | header scan =>
      dsimp only
      split
      · split
        · exact ⟨trivial, nofun⟩
        · split
          · exact failed_tidy _ _
          · exact feedHeader_tidy _ _
      · exact feedHeader_tidy _ _

/-- How octets were fed: up to the first result, with what is left over. -/
structure FedAll (limits : Limits) (a : Assembly) (octets : Octets) (fed : Fed) (left : Octets) :
    Prop where
  tidy : fed.Tidy
  taken : fed.result = none → left = []
  ended : ∀ result, fed.result = some result → ∃ octet taken, octets = octet :: taken ++ left
  outlook_eq : ∀ more, a.outlook limits (octets ++ more) = fed.outlook limits (left ++ more)

theorem feedAll_spec {a : Assembly} (h : a.Sound) (before : List Note) (octets : Octets) :
    FedAll limits a octets (feedAll limits a before octets).1 (feedAll limits a before octets).2 := by
  induction octets generalizing a before with
  | nil => exact ⟨⟨h, nofun⟩, fun _ => rfl, nofun, fun _ => rfl⟩
  | cons octet rest ih =>
      have hstep : ∀ more, a.outlook limits (octet :: (rest ++ more)) =
          (feed limits a octet).outlook limits (rest ++ more) :=
        fun more => outlook_cons h octet (rest ++ more)
      have htidy : (feed limits a octet).Tidy := feed_tidy a octet
      rw [feedAll]
      cases hresult : (feed limits a octet).result with
      | some result =>
          refine ⟨⟨htidy.sound, fun _ _ => htidy.restarts result hresult⟩, nofun, ?_, ?_⟩
          · intro _ _
            exact ⟨octet, [], rfl⟩
          · intro more
            rw [List.cons_append, hstep]
            unfold Fed.outlook
            rw [hresult]
      | none =>
          have hlater := ih htidy.sound ((feed limits a octet).notes.reverse ++ before)
          refine ⟨hlater.tidy, hlater.taken, ?_, ?_⟩
          · intro result hend
            obtain ⟨first, taken, htaken⟩ := hlater.ended result hend
            exact ⟨octet, first :: taken, congrArg (octet :: ·) htaken⟩
          · intro more
            rw [List.cons_append, hstep, ← hlater.outlook_eq]
            unfold Fed.outlook
            rw [hresult]

theorem outlook_length {a : Assembly} (h : a.Sound) {octets rest : Octets}
    {result : Except Failure Element} (heq : a.outlook limits octets = .ended result rest) :
    rest.length < octets.length := by
  induction octets generalizing a with
  | nil =>
      rw [outlook_nil h] at heq
      exact absurd heq.symm Outcome.ended_ne_short
  | cons octet octets ih =>
      rw [outlook_cons h, Fed.outlook] at heq
      rw [List.length_cons]
      cases hresult : (feed limits a octet).result with
      | none =>
          rw [hresult] at heq
          have hlater := ih (feed_tidy a octet).sound heq
          omega
      | some found =>
          rw [hresult] at heq
          rw [(Outcome.ended_inj heq).2]
          exact Nat.lt_succ_self _

end BasicEncoding.Assembly
