import BasicEncoding.Proofs.Grammar.Derivation
import BasicEncoding.Proofs.Header.RoundTrip
import BasicEncoding.Proofs.Parse.Prompt
import BasicEncoding.Proofs.Source.Taking

/-! Elements are read exactly where octets derive them. The loops over children are read against
the parts of the contents, and the depth goes down to the limit; both directions are proved
together, one level from the next. -/
namespace BasicEncoding

namespace Parse

variable {limits : Limits} {depth : Nat}

theorem scanHeader_eq_done_iff {scan : HeaderScan} {octets rest : Octets}
    {found : Header × Octets} :
    (scanHeader scan octets).outcome = .done found rest ↔
      ∃ taken, octets = taken ++ rest ∧ scan.Accepts taken found.1 ∧
        found.2 = scan.octets ++ taken := by
  constructor
  · intro hdone
    induction octets generalizing scan with
    | nil => cases hdone
    | cons octet octets ih =>
        have hseen := HeaderScan.octets_push scan octet
        unfold scanHeader at hdone
        split at hdone
        · next next hpush =>
          rw [hpush] at hseen
          obtain ⟨taken, rfl, haccepts, hfound⟩ := ih hdone
          refine ⟨octet :: taken, rfl, .more hpush haccepts, ?_⟩
          rw [hfound, hseen, List.append_assoc, List.singleton_append]
        · next header next hpush =>
          rw [hpush] at hseen
          cases hdone
          exact ⟨[octet], rfl, .last hpush, hseen⟩
        · cases hdone
  · rintro ⟨taken, rfl, haccepts, hfound⟩
    obtain ⟨header, seen⟩ := found
    dsimp only at haccepts hfound
    subst hfound
    induction haccepts with
    | @last s t octet header hpush =>
        have hseen := HeaderScan.octets_push s octet
        rw [hpush] at hseen
        rw [List.singleton_append, scanHeader_done hpush, ← hseen]
    | @more s t octet octets header hpush _ ih =>
        have hseen := HeaderScan.octets_push s octet
        rw [hpush] at hseen
        rw [List.cons_append, scanHeader_more hpush, List.append_cons, ← hseen]
        exact ih

theorem header_eq_done_iff {octets rest : Octets} {found : Header × Octets} :
    (header.run octets).outcome = .done found rest ↔
      octets = found.2 ++ rest ∧ HeaderScan.start.Accepts found.2 found.1 := by
  have hstart : HeaderScan.start.octets = [] := rfl
  change (scanHeader .start octets).outcome = _ ↔ _
  rw [scanHeader_eq_done_iff]
  constructor
  · rintro ⟨taken, htaken, haccepts, hfound⟩
    rw [hstart, List.nil_append] at hfound
    rw [hfound]
    exact ⟨htaken, haccepts⟩
  · rintro ⟨htaken, haccepts⟩
    exact ⟨found.2, htaken, haccepts, rfl⟩

end Parse

namespace HeaderScan

theorem pushLengthStart_indefinite {s t : HeaderScan} {octet : UInt8}
    (h : s.pushLengthStart octet = .ok (some .indefinite, t)) :
    s.constructed = true ∧ t.constructed = s.constructed := by
  unfold pushLengthStart at h
  dsimp only at h
  repeat' split at h
  all_goals cases h
  next hc => exact ⟨hc, rfl⟩

theorem pushLengthOctet_definite {s t : HeaderScan} {remaining : Nat} {octet : UInt8}
    (h : s.pushLengthOctet remaining octet = .ok (some .indefinite, t)) : False := by
  unfold pushLengthOctet at h
  dsimp only at h
  repeat' split at h
  all_goals cases h

theorem finish_eq_some {s t : HeaderScan} {header : Header}
    {pushed : Except Defect (Option Length × HeaderScan)}
    (h : push.finish s pushed = (.ok (some header), t)) :
    pushed = .ok (some header.length, t) ∧ header.identifier.constructed = t.constructed := by
  cases pushed with
  | error defect => cases h
  | ok found =>
      obtain ⟨length, u⟩ := found
      cases length with
      | none => cases h
      | some length =>
          cases h
          exact ⟨rfl, rfl⟩

/-- Only constructed elements have a header that leaves the length open. -/
theorem push_indefinite {s t : HeaderScan} {octet : UInt8} {header : Header}
    (h : s.push octet = (.ok (some header), t)) (hlength : header.length = .indefinite) :
    header.identifier.constructed = true := by
  unfold push at h
  dsimp only at h
  split at h
  · cases h
  · split at h <;> cases h
  · obtain ⟨hpushed, hform⟩ := finish_eq_some h
    rw [hlength] at hpushed
    obtain ⟨hconstructed, hkept⟩ := pushLengthStart_indefinite hpushed
    rw [hform, hkept, hconstructed]
  · obtain ⟨hpushed, -⟩ := finish_eq_some h
    rw [hlength] at hpushed
    exact (pushLengthOctet_definite hpushed).elim

theorem Accepts.indefinite {s : HeaderScan} {octets : Octets} {header : Header}
    (h : s.Accepts octets header) (hlength : header.length = .indefinite) :
    header.identifier.constructed = true := by
  induction h with
  | last hpush => exact push_indefinite hpush hlength
  | more _ _ ih => exact ih hlength

end HeaderScan

namespace Parse

variable {limits : Limits} {depth : Nat} {child : Parse Element} {identifier : Identifier}
  {seen contents : Octets} {e : Element}

theorem contentsResult_primitive (h : identifier.constructed = false) :
    contentsResult child identifier seen contents = .ok e ↔
      ∃ value, Value.decode identifier contents = .ok value ∧
        e = { identifier, value, children := [], framing := .definite,
              raw := some (seen ++ contents), label := "" } := by
  obtain ⟨tagClass, constructed, number⟩ := identifier
  cases h
  unfold contentsResult
  rw [if_neg Bool.false_ne_true]
  cases Value.decode ⟨tagClass, false, number⟩ contents with
  | error defect => exact ⟨nofun, nofun⟩
  | ok value =>
      constructor
      · rintro ⟨⟩
        exact ⟨value, rfl, rfl⟩
      · rintro ⟨_, ⟨⟩, rfl⟩
        rfl

theorem contentsResult_constructed (h : identifier.constructed = true) :
    contentsResult child identifier seen contents = .ok e ↔
      ∃ children rest, (child.untilEnd.run contents).outcome = .done children rest ∧
        e = { identifier, value := .nothing, children, framing := .definite,
              raw := some (seen ++ contents), label := "" } := by
  obtain ⟨tagClass, constructed, number⟩ := identifier
  cases h
  unfold contentsResult
  rw [if_pos rfl]
  cases (child.untilEnd.run contents).outcome with
  | refused failure rest => exact ⟨nofun, nofun⟩
  | short gap => exact ⟨nofun, nofun⟩
  | done children rest =>
      constructor
      · rintro ⟨⟩
        exact ⟨children, rest, rfl, rfl⟩
      · rintro ⟨_, _, ⟨⟩, rfl⟩
        rfl

theorem contentsResult_raw (h : contentsResult child identifier seen contents = .ok e) :
    e.raw = some (seen ++ contents) := by
  cases hform : identifier.constructed with
  | false =>
      obtain ⟨value, -, rfl⟩ := (contentsResult_primitive hform).mp h
      rfl
  | true =>
      obtain ⟨children, rest, -, rfl⟩ := (contentsResult_constructed hform).mp h
      rfl

theorem closed_eq (h : identifier.constructed = true) (children : List Element) :
    closed identifier seen children =
      { identifier, value := .nothing, children, framing := .indefinite,
        raw := some (seen ++ rawAll children ++ endOfContents), label := "" } := by
  obtain ⟨tagClass, constructed, number⟩ := identifier
  cases h
  rfl

theorem content_eq_done_iff {count : Nat} {octets rest : Octets} :
    ((content count).run octets).outcome = .done contents rest ↔
      octets = contents ++ rest ∧ contents.length = count := by
  rw [outcome_content]
  constructor
  · intro h
    split at h
    · cases h
    · next hlong =>
      cases h
      exact ⟨(List.take_append_drop count octets).symm,
        List.length_take_of_le (Nat.le_of_not_lt hlong)⟩
  · rintro ⟨rfl, rfl⟩
    rw [if_neg (by rw [List.length_append]; omega), List.take_left, List.drop_left]

theorem behindHeader_definite_iff {header : Header} {count : UInt64} {octets rest : Octets}
    (h : header.length = .definite count) :
    ((behindHeader limits child header seen).run octets).outcome = .done e rest ↔
      count ≤ limits.maxContentLength ∧
        ∃ contents, octets = contents ++ rest ∧ contents.length = count.toNat ∧
          contentsResult child header.identifier seen contents = .ok e := by
  rw [outcome_behindHeader_definite h, Outcome.andThen_eq_done_iff,
    ← Limits.checkContentLength_eq_ok_iff]
  constructor
  · rintro ⟨_, checked, hcheck, hrun⟩
    obtain ⟨hok, rfl⟩ := Outcome.ended_eq_done_iff.mp hcheck
    obtain ⟨contents, last, hcontents, hresult⟩ := Outcome.andThen_eq_done_iff.mp hrun
    obtain ⟨hread, rfl⟩ := Outcome.ended_eq_done_iff.mp hresult
    obtain ⟨hoctets, hlength⟩ := content_eq_done_iff.mp hcontents
    exact ⟨hok, contents, hoctets, hlength, hread⟩
  · rintro ⟨hok, contents, hoctets, hlength, hresult⟩
    refine ⟨(), octets, Outcome.ended_eq_done_iff.mpr ⟨hok, rfl⟩, ?_⟩
    rw [Outcome.andThen_eq_done_iff]
    exact ⟨contents, rest, content_eq_done_iff.mpr ⟨hoctets, hlength⟩,
      Outcome.ended_eq_done_iff.mpr ⟨hresult, rfl⟩⟩

/-- What is read at a depth where children are read as they are derived, is derived. -/
theorem derives_of_level (hdepth : depth ≤ limits.maxDepth.toNat)
    (hchild : (elementAt limits (depth + 1)).Reads (Derives limits (depth + 1)))
    {octets rest : Octets} (h : ((elementAt limits depth).run octets).outcome = .done e rest) :
    ∃ taken, octets = taken ++ rest ∧ Derives limits depth taken e := by
  have hp := elementAt_advances limits (depth + 1)
  rw [outcome_elementAt hdepth, Outcome.andThen_eq_done_iff] at h
  obtain ⟨⟨⟨identifier, length⟩, seen⟩, behind, hheader, h⟩ := h
  obtain ⟨rfl, haccepts⟩ := header_eq_done_iff.mp hheader
  cases length with
  | indefinite =>
      have hform := haccepts.indefinite rfl
      rw [outcome_behindHeader_indefinite rfl] at h
      obtain ⟨children, hchildren, rfl⟩ := Outcome.map_eq_done_iff.mp h
      obtain ⟨parts, rfl, rfl, hparts, hunmarked⟩ := (hchild.untilMarker hp).mp hchildren
      refine ⟨seen ++ joined parts ++ endOfContents, ?_, ?_⟩
      · rw [List.append_assoc, List.append_assoc]
      · rw [closed_eq hform, rawAll_values hparts]
        exact .indefinite hdepth haccepts hform hparts hunmarked
  | definite count =>
      obtain ⟨hcount, contents, rfl, hlength, hresult⟩ := (behindHeader_definite_iff rfl).mp h
      refine ⟨seen ++ contents, (List.append_assoc _ _ _).symm, ?_⟩
      cases hform : identifier.constructed with
      | false =>
          obtain ⟨value, hvalue, rfl⟩ := (contentsResult_primitive hform).mp hresult
          exact .primitive hdepth haccepts hform hcount hlength hvalue
      | true =>
          obtain ⟨children, last, hchildren, rfl⟩ := (contentsResult_constructed hform).mp hresult
          obtain ⟨-, parts, rfl, rfl, hparts⟩ := (hchild.untilEnd hp).mp hchildren
          exact .definite hdepth haccepts hform hcount hlength hparts

theorem level_of_derives (hchild : (elementAt limits (depth + 1)).Reads (Derives limits (depth + 1)))
    {taken : Octets} (h : Derives limits depth taken e) (rest : Octets) :
    ((elementAt limits depth).run (taken ++ rest)).outcome = .done e rest := by
  have hp := elementAt_advances limits (depth + 1)
  rw [outcome_elementAt h.depth_le, Outcome.andThen_eq_done_iff]
  cases h with
  | @primitive _ seen contents identifier count value _ haccepts hform hcount hlength hvalue =>
      refine ⟨(⟨identifier, .definite count⟩, seen), contents ++ rest,
        header_eq_done_iff.mpr ⟨List.append_assoc _ _ _, haccepts⟩, ?_⟩
      exact (behindHeader_definite_iff rfl).mpr ⟨hcount, contents, rfl, hlength,
        (contentsResult_primitive hform).mpr ⟨value, hvalue, rfl⟩⟩
  | @definite _ seen identifier count parts _ haccepts hform hcount hlength hparts =>
      refine ⟨(⟨identifier, .definite count⟩, seen), joined parts ++ rest,
        header_eq_done_iff.mpr ⟨List.append_assoc _ _ _, haccepts⟩, ?_⟩
      have hchildren := (hchild.untilEnd hp).mpr ⟨rfl, parts, rfl, rfl, hparts⟩
      exact (behindHeader_definite_iff rfl).mpr ⟨hcount, joined parts, rfl, hlength,
        (contentsResult_constructed hform).mpr ⟨values parts, [], hchildren, rfl⟩⟩
  | @indefinite _ seen identifier parts _ haccepts hform hparts hunmarked =>
      refine ⟨(⟨identifier, .indefinite⟩, seen), joined parts ++ (endOfContents ++ rest),
        header_eq_done_iff.mpr ⟨?_, haccepts⟩, ?_⟩
      · rw [List.append_assoc, List.append_assoc]
      · have hchildren : ((elementAt limits (depth + 1)).untilMarker.run
            (joined parts ++ (endOfContents ++ rest))).outcome = .done (values parts) rest :=
          (hchild.untilMarker hp).mpr ⟨parts, rfl, rfl, hparts, hunmarked⟩
        rw [outcome_behindHeader_indefinite rfl]
        refine Outcome.map_eq_done_iff.mpr ⟨values parts, hchildren, ?_⟩
        rw [closed_eq hform, rawAll_values hparts]

/-- At every depth, elements are read exactly where they are derived. -/
theorem reads_elementAt (limits : Limits) (depth : Nat) :
    (elementAt limits depth).Reads (Derives limits depth) := by
  induction depth using depth_induction limits with
  | deep depth hdepth =>
      intro octets e rest
      constructor
      · intro h
        rw [elementAt_of_lt hdepth] at h
        cases octets <;> cases h
      · rintro ⟨taken, -, hderives⟩
        exact absurd hderives.depth_le (Nat.not_le_of_lt hdepth)
  | level depth hdepth ih =>
      intro octets e rest
      constructor
      · exact derives_of_level hdepth ih
      · rintro ⟨taken, rfl, hderives⟩
        exact level_of_derives ih hderives rest

end Parse

section Contents

variable {limits : Limits} {depth : Nat} {contents rest : Octets} {children : List Element}

theorem readChildren_eq_done_iff_untilEnd :
    (readChildren limits depth contents).outcome = .done children rest ↔
      rest = [] ∧ ∃ last,
        ((Parse.elementAt limits depth).untilEnd.run contents).outcome = .done children last := by
  unfold readChildren Parse.within
  dsimp only
  cases ((Parse.elementAt limits depth).untilEnd.run contents).outcome with
  | done found last =>
      constructor
      · rintro ⟨⟩
        exact ⟨rfl, last, rfl⟩
      · rintro ⟨rfl, _, ⟨⟩⟩
        rfl
  | refused failure last => exact ⟨nofun, nofun⟩
  | short gap => exact ⟨nofun, nofun⟩

/-- Contents come to children where parts of them derive one child each. -/
theorem readChildren_eq_done_iff :
    (readChildren limits depth contents).outcome = .done children rest ↔
      rest = [] ∧ ∃ parts, contents = joined parts ∧ children = values parts ∧
        ∀ part ∈ parts, Derives limits depth part.1 part.2 := by
  rw [readChildren_eq_done_iff_untilEnd]
  refine and_congr_right fun _ => ?_
  simp only [(Parse.reads_elementAt limits depth).untilEnd
    (Parse.elementAt_advances limits depth), exists_eq_left]

end Contents

namespace Source

variable {limits : Limits} {s : Source} {e : Element}

theorem exists_done_of_read (h : (s.read limits).result = .ok e) :
    ∃ rest, ((Parse.elementAt limits 0).run s.ahead).outcome = .done e rest := by
  have hread := congrArg Prod.fst (read_eq_resolve limits s)
  rw [h] at hread
  cases houtcome : ((Parse.elementAt limits 0).run s.ahead).outcome with
  | done f rest =>
      rw [houtcome] at hread
      cases hread
      exact ⟨rest, rfl⟩
  | refused failure rest =>
      rw [houtcome] at hread
      cases hread
  | short gap =>
      rw [houtcome, Outcome.resolve] at hread
      split at hread <;> cases hread

/-- A read that gives an element took the octets that derive it, and left those behind them. -/
theorem exists_derives_of_read (h : (s.read limits).result = .ok e) :
    ∃ taken rest, s.ahead = taken ++ rest ∧ (s.read limits).after = s.drop taken.length ∧
      (s.read limits).after.ahead = rest ∧ Derives limits 0 taken e := by
  obtain ⟨rest, hdone⟩ := exists_done_of_read h
  obtain ⟨taken, htaken, hderives⟩ := (Parse.reads_elementAt limits 0 _ _ _).mp hdone
  have hended : ((Parse.elementAt limits 0).run s.ahead).outcome = .ended (.ok e) rest := hdone
  obtain ⟨-, hafter, hrest⟩ := read_takes hended htaken
  exact ⟨taken, rest, htaken, hafter, hrest, hderives⟩

theorem derives_take_iff (n : Nat) :
    Derives limits 0 (s.ahead.take n) e ↔
      ((Parse.elementAt limits 0).run s.ahead).outcome = .done e (s.ahead.drop n) := by
  have hwhole := List.take_append_drop n s.ahead
  rw [Parse.reads_elementAt limits 0]
  constructor
  · intro hderives
    exact ⟨s.ahead.take n, hwhole.symm, hderives⟩
  · rintro ⟨taken, htaken, hderives⟩
    have hsame : s.ahead.take n = taken := List.append_cancel_right (hwhole.trans htaken)
    rw [hsame]
    exact hderives

/-- A read gives an element and takes a number of octets, if and only if so many of the octets ahead
derive the element. No other number of them derives anything, and these derive nothing else. -/
theorem read_ok_iff_derives (limits : Limits) (s : Source) :
    (∀ (n : Nat) (e : Element),
        ((s.read limits).result = .ok e ∧ (s.read limits).after.octetCount + n = s.octetCount) ↔
          n ≤ s.ahead.length ∧ Derives limits 0 (s.ahead.take n) e) ∧
      ∀ (n m : Nat) (e f : Element), n ≤ s.ahead.length → m ≤ s.ahead.length →
        Derives limits 0 (s.ahead.take n) e → Derives limits 0 (s.ahead.take m) f →
          n = m ∧ e = f := by
  have hahead := length_ahead_le s
  refine ⟨fun n e => ⟨?_, ?_⟩, ?_⟩
  · rintro ⟨hresult, hcount⟩
    obtain ⟨taken, rest, htaken, hafter, -, hderives⟩ := exists_derives_of_read hresult
    have hlength := congrArg List.length htaken
    rw [List.length_append] at hlength
    rw [hafter, octetCount_drop] at hcount
    have hn : n = taken.length := by omega
    refine ⟨by omega, ?_⟩
    rw [hn, htaken, List.take_left]
    exact hderives
  · rintro ⟨hn, hderives⟩
    obtain ⟨hresult, hafter⟩ := read_of_done ((derives_take_iff n).mp hderives)
    refine ⟨hresult, ?_⟩
    rw [hafter, octetCount_drop, List.length_drop]
    omega
  · intro n m e f hn hm he hf
    have hdone := (derives_take_iff n).mp he
    rw [(derives_take_iff m).mp hf, Outcome.done.injEq] at hdone
    have hlength := congrArg List.length hdone.2
    rw [List.length_drop, List.length_drop] at hlength
    exact ⟨by omega, hdone.1.symm⟩

/-- Open contents with one child, and an octet behind them. -/
def openNullOctets : Octets :=
  [0x30, 0x80, 0x05, 0x00, 0x00, 0x00, 0xAA]

def openNull : Element :=
  (Element.ofChildren (.universal true Universal.sequence) .indefinite
    [(Element.null "").withRaw [0x05, 0x00]]).withRaw [0x30, 0x80, 0x05, 0x00, 0x00, 0x00]

/-- Six of the seven octets derive the element that is read, and all seven derive nothing. -/
theorem openNull_read_iff_derived :
    (read {} [.data openNullOctets]).result = .ok openNull ∧
      Derives {} 0 (openNullOctets.take 6) openNull ∧ ¬∃ f, Derives {} 0 openNullOctets f := by
  obtain ⟨hiff, hunique⟩ := read_ok_iff_derives {} [.data openNullOctets]
  have hresult : (read {} [.data openNullOctets]).result = .ok openNull := rfl
  have hderives := ((hiff 6 openNull).mp ⟨hresult, by decide⟩).2
  refine ⟨hresult, hderives, ?_⟩
  rintro ⟨f, hf⟩
  have hsame := hunique 6 7 openNull f (by decide) (by decide) hderives hf
  exact absurd hsame.1 (by decide)

end Source

end BasicEncoding
