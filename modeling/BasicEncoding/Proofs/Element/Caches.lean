import BasicEncoding.Cursor
import BasicEncoding.Proofs.Element.Nodes
import BasicEncoding.Proofs.Element.RoundTrip
import BasicEncoding.Proofs.Grammar.Acceptance
import BasicEncoding.Proofs.Intake.Agreement

/-! The octets that elements keep. Whoever reads an element, its cache is what was taken for it, and
so it is at every node: a header as it came, and behind it the caches of the children or the
contents that were read as the value. -/
namespace BasicEncoding

namespace Element

/-- The cache of a node, against what stands in it. -/
inductive Verbatim (e : Element) : Prop
  | primitive {header contents : Octets} {count : UInt64}
      (form : e.identifier.constructed = false)
      (accepted : HeaderScan.start.Accepts header ⟨e.identifier, .definite count⟩)
      (length_eq : contents.length = count.toNat)
      (decoded : Value.decode e.identifier contents = .ok e.value)
      (raw_eq : e.raw = some (header ++ contents))
  | definite {header : Octets} {count : UInt64}
      (form : e.identifier.constructed = true) (framing_eq : e.framing = .definite)
      (accepted : HeaderScan.start.Accepts header ⟨e.identifier, .definite count⟩)
      (length_eq : (rawAll e.children).length = count.toNat)
      (raw_eq : e.raw = some (header ++ rawAll e.children))
  | indefinite {header : Octets}
      (form : e.identifier.constructed = true) (framing_eq : e.framing = .indefinite)
      (accepted : HeaderScan.start.Accepts header ⟨e.identifier, .indefinite⟩)
      (raw_eq : e.raw = some (header ++ rawAll e.children ++ endOfContents))

/-- An element that stands for octets keeps them, and every node in it keeps its own. -/
structure Keeps (e : Element) (octets : Octets) : Prop where
  raw_eq : e.raw = some octets
  nodes : e.AtNodes (fun _ n => n.Verbatim) 0

variable {limits : Limits} {depth : Nat} {octets : Octets} {e : Element}

theorem verbatim_of_derives (h : Derives limits depth octets e) : e.Verbatim := by
  cases h with
  | primitive _ accepted form _ length_eq decoded =>
      exact .primitive form accepted length_eq decoded rfl
  | @definite _ header identifier count parts _ accepted form _ length_eq children =>
      have hraw := rawAll_values children
      refine .definite form rfl accepted ?_ ?_
      · change (rawAll (values parts)).length = _
        rw [hraw, length_eq]
      · change some (header ++ joined parts) = some (header ++ rawAll (values parts))
        rw [hraw]
  | @indefinite _ header identifier parts _ accepted form children _ =>
      have hraw := rawAll_values children
      refine .indefinite form rfl accepted ?_
      change some (header ++ joined parts ++ endOfContents) =
        some (header ++ rawAll (values parts) ++ endOfContents)
      rw [hraw]

theorem keeps_of_derives (h : Derives limits depth octets e) : e.Keeps octets := by
  have hnodes : e.AtNodes (fun _ n => n.Verbatim) depth :=
    h.nodes.mono fun _ _ ⟨_, _, hnode⟩ => verbatim_of_derives hnode
  exact ⟨h.raw_eq, hnodes.anywhere 0⟩

end Element

theorem keeps_of_readChildren {limits : Limits} {depth : Nat} {contents rest : Octets}
    {children : List Element}
    (h : (readChildren limits depth contents).outcome = .done children rest) :
    contents = rawAll children ∧ ∀ c ∈ children, ∃ raw, c.Keeps raw := by
  obtain ⟨-, parts, rfl, rfl, hparts⟩ := readChildren_eq_done_iff.mp h
  refine ⟨(rawAll_values hparts).symm, ?_⟩
  intro c hc
  obtain ⟨part, hpart, rfl⟩ := List.mem_map.mp hc
  exact ⟨part.1, Element.keeps_of_derives (hparts part hpart)⟩

namespace Source

theorem keeps_of_read {limits : Limits} {s : Source} {e : Element}
    (h : (s.read limits).result = .ok e) :
    ∃ raw, e.Keeps raw ∧ s.ahead = raw ++ (s.read limits).after.ahead ∧
      (s.read limits).after = s.drop raw.length := by
  obtain ⟨taken, rest, htaken, hafter, hrest, hderives⟩ := exists_derives_of_read h
  refine ⟨taken, Element.keeps_of_derives hderives, ?_, hafter⟩
  rw [hrest, htaken]

end Source

namespace Cursor

variable {c : Cursor} {e : Element}

theorem exists_derives_of_next (h : c.next.result = .ok e) :
    ∃ taken rest, c.rest = taken ++ rest ∧ c.next.after = { c with rest } ∧
      Derives c.limits 0 taken e := by
  have hdone := Reading.outcome_of_atEnd h
  obtain ⟨taken, htaken, hderives⟩ := (Parse.reads_elementAt c.limits 0 _ _ _).mp hdone
  exact ⟨taken, _, htaken, rfl, hderives⟩

/-- A cursor moves past what the element keeps, which is as much as it would have skipped. -/
theorem keeps_of_next (hc : c.remaining ≤ c.total) (h : c.next.result = .ok e) :
    ∃ raw, e.Keeps raw ∧ c.rest = raw ++ c.next.after.rest ∧
      c.next.after.position = c.position + raw.length ∧ c.skip.result = .ok raw.length := by
  obtain ⟨taken, rest, htaken, hafter, hderives⟩ := exists_derives_of_next h
  have hlength : c.remaining = taken.length + rest.length := by
    rw [remaining, htaken, List.length_append]
  have hposition : c.next.after.position = c.position + taken.length := by
    rw [hafter, position, position, hlength]
    change c.total - rest.length = _
    omega
  refine ⟨taken, Element.keeps_of_derives hderives, ?_, hposition, ?_⟩
  · rw [hafter, htaken]
  · change c.next.result.map (fun _ => c.next.after.position - c.position) = _
    rw [h, hposition, Nat.add_sub_cancel_left]
    rfl

end Cursor

theorem Element.derives_of_decode {octets : Octets} {e : Element}
    (h : (Element.decode octets).result = .ok e) : Derives {} 0 octets e := by
  obtain ⟨taken, htaken, hderives⟩ :=
    (Parse.reads_elementAt {} 0 _ _ _).mp (decode_eq_ok_iff.mp h)
  rw [htaken, List.append_nil]
  exact hderives

namespace Intake

def asked (calls : List Call) (i : Intake) : Intake :=
  calls.foldl (fun i c => (c.run i).after) i

variable {limits : Limits} {i : Intake}

/-- Calls that are given up, all of them, change nothing of what is to come. -/
theorem asked_of_given_up (h : i.Ready limits) {calls : List Call} (hnone : reads calls i = []) :
    (asked calls i).Ready limits ∧
      prospect limits (asked calls i).assembly (asked calls i).source =
        prospect limits i.assembly i.source := by
  induction calls generalizing i with
  | nil => exact ⟨h, rfl⟩
  | cons c calls ih =>
      have hcall := call_pursues h c
      rw [reads] at hnone
      cases hresult : (c.run i).result with
      | some result =>
          rw [hresult] at hnone
          cases hnone
      | none =>
          rw [hresult] at hnone
          obtain ⟨hready, hsame⟩ := ih hcall.ready hnone
          exact ⟨hready, hsame.trans (hcall.given_up hresult)⟩

/-- The result of a call, after any number of others that were given up, is that of a read which
starts where they did. -/
theorem read_of_asked (hstart : i.assembly = .start) (hplain : i.source.Plain)
    {calls : List Call} (hnone : reads calls i = []) {c : Call} {result : Except Failure Element}
    (hresult : (c.run (asked calls i)).result = some result) :
    (i.source.awake.read i.limits).result = result ∧
      (i.source.awake.read i.limits).after = (c.run (asked calls i)).after.source.awake ∧
      (c.run (asked calls i)).after.assembly = .start := by
  obtain ⟨hasked, hsame⟩ := asked_of_given_up (ready_of_start hstart hplain) hnone
  obtain ⟨hprospect, hafter⟩ := (call_pursues hasked c).ended result hresult
  rw [hsame, hstart, prospect_start, Prod.mk.injEq] at hprospect
  exact ⟨hprospect.1, hprospect.2, hafter⟩

theorem keeps_of_asked (hstart : i.assembly = .start) (hplain : i.source.Plain)
    {calls : List Call} (hnone : reads calls i = []) {c : Call} {e : Element}
    (hresult : (c.run (asked calls i)).result = some (.ok e)) :
    ∃ raw, e.Keeps raw ∧ i.source.ahead = raw ++ (c.run (asked calls i)).after.source.ahead ∧
      (c.run (asked calls i)).after.assembly = .start := by
  obtain ⟨hread, hafter, hassembly⟩ := read_of_asked hstart hplain hnone hresult
  obtain ⟨raw, hkeeps, htaken, -⟩ := Source.keeps_of_read hread
  rw [hafter, Source.ahead_awake, Source.ahead_awake] at htaken
  exact ⟨raw, hkeeps, htaken, hassembly⟩

end Intake

namespace Element

/-- Every reader gives elements that keep what was taken for them: reads of a source, calls to an
intake, steps of a cursor, and the division of contents. -/
theorem caches_are_what_was_taken (limits : Limits) :
    (∀ (s : Source) (e : Element), (s.read limits).result = .ok e →
      ∃ raw, e.Keeps raw ∧ s.ahead = raw ++ (s.read limits).after.ahead ∧
        (s.read limits).after = s.drop raw.length) ∧
    (∀ i : Intake, i.assembly = .start → i.source.Plain →
      ∀ (calls : List Intake.Call) (call : Intake.Call) (e : Element),
        Intake.reads calls i = [] → (call.run (i.asked calls)).result = some (.ok e) →
        ∃ raw, e.Keeps raw ∧
          i.source.ahead = raw ++ (call.run (i.asked calls)).after.source.ahead ∧
          (call.run (i.asked calls)).after.assembly = .start) ∧
    (∀ c : Cursor, c.remaining ≤ c.total → ∀ e : Element, c.next.result = .ok e →
      ∃ raw, e.Keeps raw ∧ c.rest = raw ++ c.next.after.rest ∧
        c.next.after.position = c.position + raw.length ∧ c.skip.result = .ok raw.length) ∧
    ∀ (depth : Nat) (contents rest : Octets) (children : List Element),
      (readChildren limits depth contents).outcome = .done children rest →
      contents = rawAll children ∧ ∀ c ∈ children, ∃ raw, c.Keeps raw := by
  refine ⟨?_, ?_, ?_, ?_⟩
  · intro s e h
    exact Source.keeps_of_read h
  · intro i hstart hplain calls call e hnone hresult
    exact Intake.keeps_of_asked hstart hplain hnone hresult
  · intro c hc e h
    exact Cursor.keeps_of_next hc h
  · intro depth contents rest children h
    exact keeps_of_readChildren h

/-- A sequence of open length around one whose length is spelled in one octet more than it needs. -/
def wrappedOctets : Octets :=
  [0x30, 0x80, 0x30, 0x81, 0x03, 0x02, 0x01, 0x07, 0x00, 0x00]

def wrapped : Element :=
  (ofChildren (.universal true Universal.sequence) .indefinite
    [(ofChildren (.universal true Universal.sequence) .definite
      [(integer 7 "").withRaw [0x02, 0x01, 0x07]]).withRaw
        [0x30, 0x81, 0x03, 0x02, 0x01, 0x07]]).withRaw wrappedOctets

/-- The same octets, as they come to an intake that is given up inside the inner length. -/
def wrappedIntake : Intake :=
  { limits := {},
    source := [.data (wrappedOctets.take 4), .stall, .data (wrappedOctets.drop 4 ++ [0xAA])] }

/-- All four readers of the wrapped sequence keep its octets, and none of the octet behind it. -/
theorem wrapped_keeps_its_octets :
    ((Source.read {} [.data (wrappedOctets ++ [0xAA])]).result = .ok wrapped ∧
      wrapped.Keeps wrappedOctets) ∧
    (Intake.reads [.polls 1] wrappedIntake = [] ∧
      (Intake.Call.run (.wait .endless) (wrappedIntake.asked [.polls 1])).result =
        some (.ok wrapped) ∧
      wrappedIntake.source.ahead = wrappedOctets ++
        (Intake.Call.run (.wait .endless) (wrappedIntake.asked [.polls 1])).after.source.ahead) ∧
    (Cursor.start {} (wrappedOctets ++ [0xAA])).skip.result = .ok wrappedOctets.length ∧
    (readChildren {} 0 (wrappedOctets ++ wrappedOctets)).outcome = .done [wrapped, wrapped] [] ∧
    wrappedOctets ++ wrappedOctets = rawAll [wrapped, wrapped] ∧
    ∀ c ∈ [wrapped, wrapped], c.Keeps wrappedOctets := by
  obtain ⟨hsource, hintake, hcursor, hcontents⟩ := caches_are_what_was_taken {}
  have hraw : ∀ raw, wrapped.Keeps raw → wrappedOctets = raw :=
    fun raw hkeeps => Option.some.inj hkeeps.raw_eq
  have hplain : wrappedIntake.source.Plain := by
    intro f hf
    simp only [wrappedIntake, List.mem_cons, reduceCtorEq, List.not_mem_nil, or_false] at hf
  have hdivided : (readChildren {} 0 (wrappedOctets ++ wrappedOctets)).outcome =
      .done [wrapped, wrapped] [] := rfl
  obtain ⟨hback, hchildren⟩ := hcontents 0 _ _ _ hdivided
  refine ⟨⟨rfl, ?_⟩, ⟨rfl, rfl, ?_⟩, ?_, hdivided, hback, ?_⟩
  · obtain ⟨raw, hkeeps, -, -⟩ := hsource [.data (wrappedOctets ++ [0xAA])] wrapped rfl
    obtain rfl := hraw raw hkeeps
    exact hkeeps
  · obtain ⟨raw, hkeeps, htaken, -⟩ :=
      hintake wrappedIntake rfl hplain [.polls 1] (.wait .endless) wrapped rfl rfl
    obtain rfl := hraw raw hkeeps
    exact htaken
  · obtain ⟨raw, hkeeps, -, -, hskip⟩ :=
      hcursor (.start {} (wrappedOctets ++ [0xAA])) (by decide) wrapped rfl
    obtain rfl := hraw raw hkeeps
    exact hskip
  · intro c hc
    obtain ⟨raw, hkeeps⟩ := hchildren c hc
    obtain rfl : c = wrapped := List.eq_of_mem_replicate (n := 2) hc
    obtain rfl := hraw raw hkeeps
    exact hkeeps

end Element

end BasicEncoding
