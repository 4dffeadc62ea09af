import BasicEncoding.Proofs.Intake.Agreement
import BasicEncoding.Proofs.Parse.Begun

/-! Sources that end. What a read comes to is decided by the octets that it takes; where the source
ends before they are there, the read says so, and it says that the input ended cleanly only ahead of
a first octet. -/
namespace BasicEncoding

namespace Source

/-- A source that may end, and more than once, but never fails. -/
def Faultless (s : Source) : Prop :=
  ∀ f, .fault f ∉ s

/-- A source of octets, in any pieces and with any waits between them: nothing breaks in before it
ends. -/
def Unbroken (s : Source) : Prop :=
  .close ∉ s ∧ s.Faultless

def isFault : Event → Bool
  | .fault _ => true
  | _ => false

instance (s : Source) : Decidable s.Faultless :=
  decidable_of_iff (∀ event ∈ s, isFault event = false)
    ⟨fun h f hf => Bool.noConfusion (h (.fault f) hf), by
      intro h event hevent
      cases event with
      | fault f => exact absurd hevent (h f)
      | _ => rfl⟩

instance (s : Source) : Decidable s.Unbroken :=
  inferInstanceAs (Decidable (_ ∧ _))

theorem Faultless.tail {event : Event} {s : Source} (h : Faultless (event :: s)) : s.Faultless :=
  fun f hf => h f (List.mem_cons_of_mem event hf)

theorem Unbroken.tail {event : Event} {s : Source} (h : Unbroken (event :: s)) : s.Unbroken :=
  ⟨fun hclose => h.1 (List.mem_cons_of_mem event hclose), h.2.tail⟩

theorem mem_of_mem_drop {event : Event} {n : Nat} {s : Source} (h : event ∈ s.drop n)
    (hevent : ∀ octets, event ≠ .data octets) : event ∈ s := by
  fun_induction Source.drop n s with
  | case1 s => exact h
  | case2 n => exact h
  | case3 n octets s hlt =>
      rcases List.mem_cons.mp h with hdata | hmem
      · exact absurd hdata (hevent _)
      · exact List.mem_cons_of_mem _ hmem
  | case4 n octets s hle ih => exact List.mem_cons_of_mem _ (ih h)
  | case5 n other s hdata ih => exact List.mem_cons_of_mem _ (ih h)

theorem Faultless.drop {s : Source} (h : s.Faultless) (n : Nat) : (s.drop n).Faultless :=
  fun f hf => h f (mem_of_mem_drop hf nofun)

theorem Unbroken.drop {s : Source} (h : s.Unbroken) (n : Nat) : (s.drop n).Unbroken :=
  ⟨fun hclose => h.1 (mem_of_mem_drop hclose nofun), h.2.drop n⟩

theorem Faultless.nextBreak {s : Source} (h : s.Faultless) :
    ∃ after, s.nextBreak = (none, after) ∧ after.Faultless := by
  induction s with
  | nil => exact ⟨[], rfl, h⟩
  | cons event s ih =>
      cases event with
      | fault f => exact absurd List.mem_cons_self (h f)
      | close => exact ⟨s, rfl, h.tail⟩
      | data octets => exact ih h.tail
      | stall => exact ih h.tail
      | delay span => exact ih h.tail
      | due time => exact ih h.tail

theorem unbroken_data (octets : Octets) : Unbroken [.data octets] := by
  constructor
  · intro hclose
    cases List.mem_singleton.mp hclose
  · intro f hf
    cases List.mem_singleton.mp hf

theorem Unbroken.all_ahead {s : Source} (h : s.Unbroken) :
    s.ahead.length = s.octetCount ∧ s.nextBreak = (none, []) := by
  induction s with
  | nil => exact ⟨rfl, rfl⟩
  | cons event s ih =>
      obtain ⟨hahead, hbreak⟩ := ih h.tail
      cases event with
      | data octets =>
          refine ⟨?_, hbreak⟩
          rw [ahead, octetCount, List.length_append, hahead]
      | fault f => exact absurd List.mem_cons_self (h.2 f)
      | close => exact absurd List.mem_cons_self h.1
      | stall => exact ⟨hahead, hbreak⟩
      | delay span => exact ⟨hahead, hbreak⟩
      | due time => exact ⟨hahead, hbreak⟩

variable {limits : Limits} {s t : Source} {result : Except Failure Element} {rest : Octets}

theorem read_of_short (hs : s.Unbroken) {gap : Gap}
    (h : ((Parse.elementAt limits 0).run s.ahead).outcome = .short gap) :
    (s.read limits).result = .error gap.failure ∧ (s.read limits).after = [] := by
  have hread := read_eq_resolve limits s
  rw [h, Outcome.resolve, hs.all_ahead.2, Prod.mk.injEq] at hread
  exact hread

/-- A result that says that the input ended inside the element. -/
def SaysTruncated (result : Except Failure Element) : Prop :=
  ∃ context, result = .error (.truncated context)

theorem read_nil (limits : Limits) (hs : s.Unbroken) (h : s.ahead = []) :
    (s.read limits).result = .error .endOfInput ∧ (s.read limits).after = [] := by
  have hshort := Parse.elementAt_nil limits 0
  rw [← h] at hshort
  exact read_of_short hs hshort

theorem read_of_short_begun (hs : s.Unbroken) (hne : s.ahead ≠ []) {gap : Gap}
    (h : ((Parse.elementAt limits 0).run s.ahead).outcome = .short gap) :
    SaysTruncated (s.read limits).result := by
  obtain ⟨octet, octets, hahead⟩ := List.exists_cons_of_ne_nil hne
  have hbegun := Parse.begins_elementAt limits 0 octet octets
  rw [← hahead, h] at hbegun
  have hgap : gap ≠ .start := hbegun
  refine ⟨gap.text, ?_⟩
  rw [(read_of_short hs h).1, Gap.failure, if_neg hgap]

/-- The ways a read of octets can end. -/
theorem read_cases (limits : Limits) (hs : s.Unbroken) :
    (s.ahead = [] ∧ (s.read limits).result = .error .endOfInput ∧ (s.read limits).after = []) ∨
    (s.ahead ≠ [] ∧ SaysTruncated (s.read limits).result ∧ (s.read limits).after = []) ∨
    (s.ahead ≠ [] ∧ (∀ failure, (s.read limits).result = .error failure → failure.Refusal) ∧
      ∃ rest, ((Parse.elementAt limits 0).run s.ahead).outcome =
        .ended (s.read limits).result rest) := by
  by_cases hne : s.ahead = []
  · exact .inl ⟨hne, read_nil limits hs hne⟩
  · rcases Outcome.exists_ended_or_short ((Parse.elementAt limits 0).run s.ahead).outcome with
      ⟨result, rest, hended⟩ | ⟨gap, hshort⟩
    · have hresult := (read_of_ended hended).1
      refine .inr (.inr ⟨hne, ?_, rest, by rw [hresult, hended]⟩)
      intro failure hfailure
      rw [← hresult, hfailure] at hended
      exact Parse.refusal_elementAt hended
    · exact .inr (.inl ⟨hne, read_of_short_begun hs hne hshort, (read_of_short hs hshort).2⟩)

/-- A source that never fails gives no such failure, and leaves a source that never fails. -/
theorem Faultless.read (h : s.Faultless) (limits : Limits) :
    (s.read limits).after.Faultless ∧ ∀ f, (s.read limits).result ≠ .error (.input f) := by
  rcases Outcome.exists_ended_or_short ((Parse.elementAt limits 0).run s.ahead).outcome with
    ⟨result, rest, hended⟩ | ⟨gap, hshort⟩
  · obtain ⟨hresult, hafter⟩ := read_of_ended hended
    rw [hresult, hafter]
    refine ⟨h.drop _, ?_⟩
    rintro f rfl
    exact Parse.refusal_elementAt hended
  · obtain ⟨after, hbreak, hafter⟩ := h.nextBreak
    have hread := read_eq_resolve limits s
    rw [hshort, Outcome.resolve, hbreak, Prod.mk.injEq] at hread
    rw [hread.1, hread.2]
    refine ⟨hafter, ?_⟩
    intro f hf
    unfold Gap.failure at hf
    split at hf <;> cases hf

/-- What was taken decides the result wherever it is ahead, and its beginnings are cut short. -/
theorem read_decided
    (h : ((Parse.elementAt limits 0).run s.ahead).outcome = .ended result rest) :
    ∃ taken, taken ≠ [] ∧ s.ahead = taken ++ rest ∧
      (∀ (t : Source) (more : Octets), t.ahead = taken ++ more →
        (t.read limits).result = result ∧ (t.read limits).after = t.drop taken.length ∧
          (t.read limits).after.ahead = more) ∧
      ∀ t : Source, t.Unbroken → ∀ lost, lost ≠ [] → taken = t.ahead ++ lost → t.ahead ≠ [] →
        SaysTruncated (t.read limits).result := by
  have hprompt := Parse.prompt_elementAt limits 0
  obtain ⟨taken, htaken, hdecides⟩ := hprompt.prompt s.ahead result rest h
  refine ⟨taken, hdecides.ne_nil hprompt.start, htaken, ?_, ?_⟩
  · intro t more hahead
    have hwhole := hdecides.whole more
    rw [← hahead] at hwhole
    exact read_takes hwhole hahead
  · intro t ht lost hlost hpart hne
    obtain ⟨gap, hgap⟩ := hdecides.cut t.ahead lost hpart hlost
    exact read_of_short_begun ht hne hgap

theorem read_unbroken (limits : Limits) (hs : s.Unbroken) :
    (s.read limits).after.Unbroken ∧
      (s.ahead ≠ [] → (s.read limits).after.octetCount < s.octetCount) := by
  have hnil : Unbroken [] := ⟨nofun, nofun⟩
  have hpos : s.ahead ≠ [] → 0 < s.octetCount := by
    intro hne
    rw [← hs.all_ahead.1]
    exact List.length_pos_iff.mpr hne
  rcases read_cases limits hs with ⟨hahead, -, hafter⟩ | ⟨-, -, hafter⟩ | ⟨-, -, rest, hended⟩
  · rw [hafter]
    exact ⟨hnil, hpos⟩
  · rw [hafter]
    exact ⟨hnil, hpos⟩
  · obtain ⟨taken, htaken, hahead, hall, -⟩ := read_decided hended
    have hafter := (hall s rest hahead).2.1
    rw [hafter, octetCount_drop]
    refine ⟨hs.drop _, ?_⟩
    intro hne
    have hsome := List.length_pos_iff.mpr htaken
    have hmore := hpos hne
    omega

/-- Pieces and waits make no difference to a read. -/
theorem read_of_same_ahead (limits : Limits) (hs : s.Unbroken) (ht : t.Unbroken)
    (h : s.ahead = t.ahead) :
    (s.read limits).result = (t.read limits).result ∧
      (s.read limits).after.ahead = (t.read limits).after.ahead := by
  rcases Outcome.exists_ended_or_short ((Parse.elementAt limits 0).run s.ahead).outcome with
    ⟨result, rest, hended⟩ | ⟨gap, hshort⟩
  · obtain ⟨taken, -, hahead, hall, -⟩ := read_decided hended
    obtain ⟨hresult, -, hrest⟩ := hall s rest hahead
    obtain ⟨hresult', -, hrest'⟩ := hall t rest (h.symm.trans hahead)
    exact ⟨hresult.trans hresult'.symm, hrest.trans hrest'.symm⟩
  · obtain ⟨hresult, hafter⟩ := read_of_short hs hshort
    rw [h] at hshort
    obtain ⟨hresult', hafter'⟩ := read_of_short ht hshort
    rw [hresult, hafter, hresult', hafter']
    exact ⟨rfl, rfl⟩

theorem reads_of_same_ahead (limits : Limits) (hs : s.Unbroken) (ht : t.Unbroken)
    (h : s.ahead = t.ahead) (n : Nat) : Source.reads limits n s = Source.reads limits n t := by
  induction n generalizing s t with
  | zero => rfl
  | succ n ih =>
      obtain ⟨hresult, hahead⟩ := read_of_same_ahead limits hs ht h
      have hleft := (read_unbroken limits hs).1
      have hright := (read_unbroken limits ht).1
      have hcount : (s.read limits).after.octetCount = (t.read limits).after.octetCount := by
        rw [← hleft.all_ahead.1, ← hright.all_ahead.1, hahead]
      rw [Source.reads, Source.reads, hresult, hcount, ih hleft hright hahead]

/-- Reads that go on past every failure come to the end of the input: each but the last takes an
octet. -/
theorem reads_reach_end (limits : Limits) (hs : s.Unbroken) {n : Nat} (h : s.octetCount ≤ n) :
    (.error .endOfInput, 0) ∈ Source.reads limits (n + 1) s := by
  induction n generalizing s with
  | zero =>
      have hnil : s.ahead = [] := by
        rw [← List.length_eq_zero_iff, hs.all_ahead.1]
        omega
      obtain ⟨hresult, hafter⟩ := read_nil limits hs hnil
      rw [Source.reads, hresult, hafter]
      exact List.mem_cons_self
  | succ n ih =>
      obtain ⟨hunbroken, hless⟩ := read_unbroken limits hs
      by_cases hnil : s.ahead = []
      · obtain ⟨hresult, hafter⟩ := read_nil limits hs hnil
        rw [Source.reads, hresult, hafter]
        exact List.mem_cons_self
      · have hfewer := hless hnil
        rw [Source.reads]
        exact List.mem_cons_of_mem _ (ih hunbroken (by omega))

/-- A read that did not run short took octets that decide its result, in this source and in any
other; their beginnings do not decide it. -/
theorem exists_taken
    (hended : ((Parse.elementAt limits 0).run s.ahead).outcome =
      .ended (s.read limits).result rest) :
    ∃ taken, taken ≠ [] ∧ s.ahead = taken ++ (s.read limits).after.ahead ∧
      (∀ (t : Source) (more : Octets), t.Unbroken → t.ahead = taken ++ more →
        (t.read limits).result = (s.read limits).result ∧ (t.read limits).after.ahead = more) ∧
      ∀ t : Source, t.Unbroken → t.ahead <+: taken → t.ahead ≠ taken →
        if t.ahead = [] then (t.read limits).result = .error .endOfInput
        else SaysTruncated (t.read limits).result := by
  obtain ⟨taken, htaken, hahead, hall, hcut⟩ := read_decided hended
  refine ⟨taken, htaken, ?_, ?_, ?_⟩
  · rw [(hall s rest hahead).2.2]
    exact hahead
  · intro t more _ hmore
    obtain ⟨hresult, -, hleft⟩ := hall t more hmore
    exact ⟨hresult, hleft⟩
  · rintro t ht ⟨lost, hlost⟩ hpart
    split
    · next hnil => exact (read_nil limits ht hnil).1
    · next hne =>
      have hmissing : lost ≠ [] := by
        rintro rfl
        exact hpart (by rw [← hlost, List.append_nil])
      exact hcut t ht lost hmissing hlost.symm hne

/-- A read of octets tells a clean end from a truncation, and both from octets that are refused; what
it comes to depends on the octets it takes. -/
theorem outcome_depends_on_taken (limits : Limits) {s : Source} (hs : s.Unbroken) :
    ((s.read limits).result = .error .endOfInput ↔ s.ahead = []) ∧
    (SaysTruncated (s.read limits).result →
      s.ahead ≠ [] ∧ (s.read limits).after.octetCount = 0) ∧
    ((s.read limits).result ≠ .error .endOfInput → ¬SaysTruncated (s.read limits).result →
      ∃ taken, taken ≠ [] ∧ s.ahead = taken ++ (s.read limits).after.ahead ∧
        (∀ (t : Source) (more : Octets), t.Unbroken → t.ahead = taken ++ more →
          (t.read limits).result = (s.read limits).result ∧
            (t.read limits).after.ahead = more) ∧
        ∀ t : Source, t.Unbroken → t.ahead <+: taken → t.ahead ≠ taken →
          if t.ahead = [] then (t.read limits).result = .error .endOfInput
          else SaysTruncated (t.read limits).result) ∧
    (.error .endOfInput, 0) ∈ Source.reads limits (s.ahead.length + 1) s := by
  have hend := reads_reach_end limits hs (Nat.le_of_eq hs.all_ahead.1.symm)
  rcases read_cases limits hs with
    ⟨hnil, hresult, hafter⟩ | ⟨hne, ⟨context, hresult⟩, hafter⟩ | ⟨hne, hrefusal, rest, hended⟩
  · refine ⟨⟨fun _ => hnil, fun _ => hresult⟩, ?_, fun hnot => absurd hresult hnot, hend⟩
    rintro ⟨context, htruncated⟩
    rw [hresult] at htruncated
    cases htruncated
  · refine ⟨⟨?_, fun hnil => absurd hnil hne⟩, fun _ => ⟨hne, ?_⟩,
      fun _ hnot => absurd ⟨context, hresult⟩ hnot, hend⟩
    · intro hclean
      rw [hresult] at hclean
      cases hclean
    · rw [hafter]
      rfl
  · refine ⟨⟨?_, fun hnil => absurd hnil hne⟩, ?_, ?_, hend⟩
    · intro hclean
      exact (hrefusal .endOfInput hclean).elim
    · rintro ⟨context, htruncated⟩
      exact (hrefusal (.truncated context) htruncated).elim
    · exact fun _ _ => exists_taken hended

/-- Contents that a child overruns, in pieces, and an element behind them. -/
def overrun : Source :=
  [.data [0x30], .stall, .data [0x03, 0x02, 0x05, 0x01, 0x05, 0x00]]

/-- Contents that a child fits, and an octet behind them. -/
def fitting : Source :=
  [.data [0x30, 0x03], .stall, .data [0x02, 0x01, 0x05, 0x05]]

def fitted : Element :=
  (Element.ofChildren (.universal true Universal.sequence) .definite
    [(Element.integer 5 "").withRaw [0x02, 0x01, 0x05]]).withRaw [0x30, 0x03, 0x02, 0x01, 0x05]

/-- An overrun and an element, and both told from what they are when their last octet is missing. What
stands behind either of them is left, and the end is met. -/
theorem overrun_told_from_truncation :
    overrun.Unbroken ∧ fitting.Unbroken ∧
      (overrun.read {}).result =
        .error (.invalidData (.childOverrun "content: expected 5 bytes, got 1")) ∧
      SaysTruncated (Source.read {} [.data [0x30, 0x03], .data [0x02, 0x05]]).result ∧
      (fitting.read {}).result = .ok fitted ∧ (fitting.read {}).after.ahead = [0x05] ∧
      SaysTruncated (Source.read {} [.data [0x30, 0x03, 0x02], .stall, .data [0x01]]).result ∧
      (.error .endOfInput, 0) ∈ Source.reads {} 8 overrun := by
  have hoverrun : overrun.Unbroken := by decide
  have hfitting : fitting.Unbroken := by decide
  have hrefusal : (overrun.read {}).result =
      .error (.invalidData (.childOverrun "content: expected 5 bytes, got 1")) := by rfl
  have hfound : (fitting.read {}).result = .ok fitted := by rfl
  obtain ⟨-, -, hrefused, hend⟩ := outcome_depends_on_taken {} hoverrun
  obtain ⟨-, -, haccepted, -⟩ := outcome_depends_on_taken {} hfitting
  obtain ⟨taken, -, htaken, -, hcut⟩ := hrefused (by rw [hrefusal]; exact nofun)
    (by rw [hrefusal]; exact nofun)
  have hsplit : [0x30, 0x03, 0x02, 0x05, 0x01] ++ [0x05, 0x00] = taken ++ [0x05, 0x00] := htaken
  obtain rfl := List.append_cancel_right hsplit
  obtain ⟨taken, -, htaken, -, hshort⟩ := haccepted (by rw [hfound]; exact nofun)
    (by rw [hfound]; exact nofun)
  have hsplit : [0x30, 0x03, 0x02, 0x01, 0x05] ++ [0x05] = taken ++ [0x05] := htaken
  obtain rfl := List.append_cancel_right hsplit
  exact ⟨hoverrun, hfitting, hrefusal,
    hcut [.data [0x30, 0x03], .data [0x02, 0x05]] (by decide) (by decide) (by decide),
    hfound, rfl,
    hshort [.data [0x30, 0x03, 0x02], .stall, .data [0x01]] (by decide) (by decide) (by decide),
    hend⟩

end Source

end BasicEncoding
