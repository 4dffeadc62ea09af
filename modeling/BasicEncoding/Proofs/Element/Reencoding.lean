import BasicEncoding.Proofs.Element.Decoded
import BasicEncoding.Proofs.Element.RoundTrip

/-! Trees that were read, written and read again. One thing is lost: a child of open contents whose
identifier is that of the marker. It was told from the marker by a longer spelling, and it is
written in the shortest. -/
namespace BasicEncoding.Element

open Parse (elementAt elementAt_advances)

structure Alike (e f : Element) : Prop where
  same : e.same f = true
  framing : SameFraming e f

theorem Alike.count {e f : Element} (h : Alike e f) : e.children.length = f.children.length :=
  h.framing.count

theorem Alike.child {e f c d : Element} (h : Alike e f)
    (hmem : (c, d) ∈ e.children.zip f.children) : Alike c d :=
  ⟨(same_iff.mp h.same).2.2.2 c d hmem, h.framing.child hmem⟩

variable {limits : Limits} {depth : Nat}

def MarkerFreeAt (depth : Nat) (e : Element) : Prop :=
  e.AtNodes (fun _ n => n.MarkerFree) depth

/-- Reading an element like the one written tells that nothing was taken for a marker, and takes
its octets only. -/
def Tells (child : Parse Element) (depth : Nat) (e : Element) : Prop :=
  ∀ rest f last, (child.run (e.encode ++ rest)).outcome = .done f last → Alike f e →
    MarkerFreeAt depth e ∧ last = rest

/-- The first child that was read tells it of the first one written, and leaves the others where
they were written. -/
theorem first_tells {child : Parse Element} {more : Parse (List Element)} {e : Element}
    {es fs : List Element} {rest last : Octets} (h : e.Tells child depth)
    (hread : ((child.run (e.encode ++ rest)).outcome.andThen fun f behind =>
      (more.run behind).outcome.map (f :: ·)) = .done fs last)
    (halike : ∀ f c, (f, c) ∈ fs.zip (e :: es) → Alike f c) :
    MarkerFreeAt depth e ∧ ∃ f others, fs = f :: others ∧
      (more.run rest).outcome = .done others last := by
  obtain ⟨f, behind, others, hfirst, hothers, rfl⟩ := Outcome.andThen_cons_eq_done_iff.mp hread
  obtain ⟨hfree, rfl⟩ := h rest f behind hfirst (halike f e List.mem_cons_self)
  exact ⟨hfree, f, others, rfl, hothers⟩

theorem untilEnd_tells {child : Parse Element} (hp : child.Advances) {es fs : List Element}
    {last : Octets} (h : ∀ c ∈ es, c.Tells child depth)
    (hread : (child.untilEnd.run (encodeAll es)).outcome = .done fs last)
    (hcount : fs.length = es.length) (halike : ∀ f c, (f, c) ∈ fs.zip es → Alike f c) :
    ∀ c ∈ es, MarkerFreeAt depth c := by
  induction es generalizing fs with
  | nil => exact nofun
  | cons e es ih =>
      obtain ⟨octet, tail, hcons, -⟩ := exists_encode_cons e
      rw [encodeAll, hcons, List.cons_append, Parse.untilEnd_cons hp, ← List.cons_append,
        ← hcons] at hread
      obtain ⟨hfree, f, others, rfl, hothers⟩ := first_tells (h e List.mem_cons_self) hread halike
      have hrest := ih (fun c hc => h c (List.mem_cons_of_mem e hc)) hothers
        (Nat.succ.inj hcount) fun f c hmem => halike f c (List.mem_cons_of_mem _ hmem)
      exact List.forall_mem_cons.mpr ⟨hfree, hrest⟩

theorem untilMarker_tells {child : Parse Element} (hp : child.Advances) {es fs : List Element}
    {rest last : Octets} (h : ∀ c ∈ es, c.Tells child depth)
    (hread : (child.untilMarker.run (encodeAll es ++ (endOfContents ++ rest))).outcome =
      .done fs last)
    (hcount : fs.length = es.length) (halike : ∀ f c, (f, c) ∈ fs.zip es → Alike f c) :
    ∀ c ∈ es, c.identifier ≠ marker ∧ MarkerFreeAt depth c := by
  induction es generalizing fs with
  | nil => exact nofun
  | cons e es ih =>
      obtain ⟨octet, tail, hcons, hmarker⟩ := exists_encode_cons e
      rw [encodeAll, List.append_assoc, hcons, List.cons_append] at hread
      by_cases hzero : octet = 0
      · rw [hzero, Parse.untilMarker_zero] at hread
        rw [(Parse.behindZero_eq_done hread).1] at hcount
        cases hcount
      · rw [Parse.untilMarker_cons hp hzero, ← List.cons_append, ← hcons] at hread
        obtain ⟨hfree, f, others, rfl, hothers⟩ := first_tells (h e List.mem_cons_self) hread halike
        have hrest := ih (fun c hc => h c (List.mem_cons_of_mem e hc)) hothers
          (Nat.succ.inj hcount) fun f c hmem => halike f c (List.mem_cons_of_mem _ hmem)
        exact List.forall_mem_cons.mpr ⟨⟨mt hmarker.mpr hzero, hfree⟩, hrest⟩

/-- A tree that is accepted at every node and free of markers gives itself back. -/
theorem returns_of_markerFree {e : Element} (h : e.AtNodes (Accepted limits) depth)
    (hfree : MarkerFreeAt depth e) : e.AtNodes (Returns limits) depth :=
  (h.and hfree).mono fun _ _ hboth => ⟨hboth.1, hboth.2⟩

theorem markerFree_tells {e : Element} (h : e.AtNodes (Accepted limits) depth)
    (hfree : ∀ rest f last, ((elementAt limits depth).run (e.encode ++ rest)).outcome =
      .done f last → Alike f e → MarkerFreeAt depth e) :
    e.Tells (elementAt limits depth) depth := by
  intro rest f last hread halike
  have hnodes := hfree rest f last hread halike
  have hback := readBack_of_atNodes (returns_of_markerFree h hnodes) rest
  rw [hread] at hback
  exact ⟨hnodes, (Outcome.done.inj hback).2⟩

theorem children_of_contentsResult {child : Parse Element} {identifier : Identifier}
    {octets contents : Octets} {f : Element}
    (h : Parse.contentsResult child identifier octets contents = .ok f)
    (hc : identifier.constructed = true) :
    ∃ last, (child.untilEnd.run contents).outcome = .done f.children last := by
  unfold Parse.contentsResult at h
  rw [if_pos hc] at h
  split at h
  · next children last hchildren =>
    cases h
    exact ⟨last, hchildren⟩
  · cases h
  · cases h

/-- If octets written of a tree are read as a tree like it, nothing in them was taken for a
marker. -/
theorem accepted_tells {e : Element} (h : e.AtNodes (Accepted limits) depth) :
    e.Tells (elementAt limits depth) depth := by
  induction h with
  | @node depth e here below ih =>
      apply markerFree_tells (.node here below)
      intro rest f last hread halike
      have hp := elementAt_advances limits (depth + 1)
      cases hframing : e.usedFraming with
      | definite =>
          rw [encode_of_definite hframing,
            Parse.outcome_encodeDefinite here.depth_le (here.length_allowed hframing)] at hread
          obtain ⟨hresult, -⟩ := Outcome.ended_eq_done_iff.mp hread
          have hhere : e.MarkerFree := fun hopen => by
            rw [hframing] at hopen
            cases hopen
          cases hc : e.identifier.constructed with
          | true =>
              have hcontents : e.contents = encodeAll e.children := if_pos hc
              obtain ⟨behind, hchildren⟩ := children_of_contentsResult hresult hc
              rw [hcontents] at hchildren
              exact .node hhere (untilEnd_tells hp ih hchildren halike.count
                fun f c hmem => halike.child hmem)
          | false =>
              refine .node hhere ?_
              rw [here.formed.no_children hc]
              exact nofun
      | indefinite =>
          have hc := constructed_of_indefinite hframing
          rw [encode_of_indefinite hframing, List.append_assoc, List.append_assoc,
            Parse.outcome_encodeOpen here.depth_le hc] at hread
          obtain ⟨children, hchildren, rfl⟩ := Outcome.map_eq_done_iff.mp hread
          have hall := untilMarker_tells hp ih hchildren halike.count
            fun f c hmem => halike.child hmem
          exact .node (fun _ c hmem => (hall c hmem).1) fun c hmem => (hall c hmem).2

def NumbersOnly (e : Element) : Prop :=
  e.AtNodes (fun _ n => ∀ x, n.value = .real x → x.isNaN = false) 0

def LengthsAllowed (limits : Limits) (e : Element) : Prop :=
  e.AtNodes (fun _ n => n.LengthAllowed limits) 0

/-- A tree that was read, from whatever octets, is written to octets that are read as a tree like
it, if and only if no child of open contents has the identifier of the marker. -/
theorem reencoded_iff_markerFree {octets : Octets} {e : Element}
    (hread : (Element.decode octets).result = .ok e) (hnumbers : e.NumbersOnly)
    (hlengths : e.LengthsAllowed {}) :
    (∃ e', (Element.decode e.encode).result = .ok e' ∧ e'.same e = true ∧ SameFraming e' e) ↔
      e.AtNodes (fun _ n => n.MarkerFree) 0 := by
  have hnodes : e.AtNodes (Read {}) 0 := nodes_read (decode_eq_ok_iff.mp hread)
  have haccepted : e.AtNodes (Accepted {}) 0 := by
    refine ((hnodes.and hnumbers).and hlengths).mono ?_
    rintro depth n ⟨⟨hread, hnumber⟩, hlength⟩
    exact ⟨hread.formed, hread.octets_elsewhere,
      fun x hx => ⟨hnumber x hx, hread.not_subnormal x hx⟩, hread.depth_le, hlength⟩
  constructor
  · rintro ⟨e', hdecode, hsame, hframing⟩
    have hdone := decode_eq_ok_iff.mp hdecode
    rw [← List.append_nil e.encode] at hdone
    exact (accepted_tells haccepted [] e' [] hdone ⟨hsame, hframing⟩).1
  · intro hfree
    have hreturns := returns_of_markerFree haccepted hfree
    exact ⟨e.received, decode_of_encodable hreturns, received_same hreturns,
      received_sameFraming hreturns⟩

/-- Open contents with one child, whose identifier is that of the marker in the long form. -/
def paddedMarker : Element :=
  (ofChildren (.universal true Universal.sequence) .indefinite
    [(bare marker .nothing "").withRaw [0x1F, 0x00, 0x00]]).withRaw
    [0x30, 0x80, 0x1F, 0x00, 0x00, 0x00, 0x00]

/-- Seven octets that are read, and of which the tree is written in six that are refused. -/
theorem paddedMarker_lost :
    (Element.decode [0x30, 0x80, 0x1F, 0x00, 0x00, 0x00, 0x00]).result = .ok paddedMarker ∧
      paddedMarker.NumbersOnly ∧ paddedMarker.LengthsAllowed {} ∧
      paddedMarker.encode = [0x30, 0x80, 0x00, 0x00, 0x00, 0x00] ∧
      ¬∃ e', (Element.decode paddedMarker.encode).result = .ok e' ∧
        e'.same paddedMarker = true ∧ SameFraming e' paddedMarker := by
  have hread : (Element.decode [0x30, 0x80, 0x1F, 0x00, 0x00, 0x00, 0x00]).result =
      .ok paddedMarker := rfl
  have hnumbers : paddedMarker.NumbersOnly :=
    .node nofun (List.forall_mem_cons.mpr ⟨.node nofun nofun, nofun⟩)
  have hlengths : paddedMarker.LengthsAllowed {} :=
    .node nofun (List.forall_mem_cons.mpr ⟨.node (fun _ => by decide) nofun, nofun⟩)
  refine ⟨hread, hnumbers, hlengths, by decide, ?_⟩
  intro hback
  have hfree := (reencoded_iff_markerFree hread hnumbers hlengths).mp hback
  exact hfree.here rfl _ List.mem_cons_self rfl

end BasicEncoding.Element
