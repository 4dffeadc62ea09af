import BasicEncoding.Cursor
import BasicEncoding.Proofs.Element.Encodable
import BasicEncoding.Proofs.Parse.Outcome
import BasicEncoding.Proofs.Source.Taking

/-! Elements read back from their octets. The two framings are read by two loops over the children;
both see the children one by one, with the octets of the rest behind them. -/
namespace BasicEncoding

namespace Parse

variable {limits : Limits} {depth : Nat} {identifier : Identifier} {contents rest : Octets}

/-- Contents behind the header that fits them are taken whole. -/
theorem outcome_encodeDefinite (hdepth : depth ≤ limits.maxDepth.toNat)
    (hlength : contents.length ≤ limits.maxContentLength.toNat) :
    ((elementAt limits depth).run (encodeDefinite identifier contents ++ rest)).outcome =
      .ended (contentsResult (elementAt limits (depth + 1)) identifier
        (Header.encode ⟨identifier, .definite (UInt64.ofNat contents.length)⟩) contents) rest := by
  have hword : (UInt64.ofNat contents.length).toNat = contents.length := by
    have hlimit := limits.maxContentLength.toNat_lt
    rw [UInt64.toNat_ofNat']
    omega
  have hcheck : limits.checkContentLength (UInt64.ofNat contents.length) = .ok () := by
    rw [Limits.checkContentLength_eq_ok_iff, UInt64.le_iff_toNat_le, hword]
    exact hlength
  have hopen : ∀ count, Length.definite count = .indefinite → identifier.constructed = true := nofun
  rw [outcome_elementAt hdepth, encodeDefinite, List.append_assoc, run_header_encode _ (hopen _)]
  change ((behindHeader _ _ _ _).run (contents ++ rest)).outcome = _
  rw [outcome_behindHeader_definite rfl, hcheck, hword]
  change ((content contents.length).run (contents ++ rest)).outcome.andThen _ = _
  rw [run_content_append]
  rfl

theorem outcome_encodeOpen (hdepth : depth ≤ limits.maxDepth.toNat)
    (hconstructed : identifier.constructed = true) (inner : Octets) :
    ((elementAt limits depth).run (Header.encode ⟨identifier, .indefinite⟩ ++ inner)).outcome =
      ((elementAt limits (depth + 1)).untilMarker.run inner).outcome.map
        (closed identifier (Header.encode ⟨identifier, .indefinite⟩)) := by
  rw [outcome_elementAt hdepth, run_header_encode _ (fun _ => hconstructed)]
  change ((behindHeader _ _ _ _).run inner).outcome = _
  rw [outcome_behindHeader_indefinite rfl]

end Parse

namespace Element

open Parse (elementAt elementAt_advances)

variable {limits : Limits} {child : Parse Element} {es : List Element}

/-- The octets of an element, with anything behind them, are read as the element received. -/
def ReadBack (child : Parse Element) (e : Element) : Prop :=
  ∀ rest, (child.run (e.encode ++ rest)).outcome = .done e.received rest

theorem untilEnd_encodeAll (hp : child.Advances) (h : ∀ c ∈ es, c.ReadBack child) :
    (child.untilEnd.run (encodeAll es)).outcome = .done (es.map received) [] := by
  induction es with
  | nil => rfl
  | cons e es ih =>
      obtain ⟨octet, tail, hcons, -⟩ := exists_encode_cons e
      have hfirst := h e List.mem_cons_self (encodeAll es)
      have hothers := ih fun c hc => h c (List.mem_cons_of_mem e hc)
      rw [hcons, List.cons_append] at hfirst
      rw [encodeAll, hcons, List.cons_append, Parse.untilEnd_cons hp, hfirst]
      change ((child.untilEnd.run (encodeAll es)).outcome.map _) = _
      rw [hothers]
      rfl

theorem untilMarker_encodeAll (hp : child.Advances) (h : ∀ c ∈ es, c.ReadBack child)
    (hmarker : ∀ c ∈ es, c.identifier ≠ marker) (rest : Octets) :
    (child.untilMarker.run (encodeAll es ++ (endOfContents ++ rest))).outcome =
      .done (es.map received) rest := by
  induction es with
  | nil => rfl
  | cons e es ih =>
      obtain ⟨octet, tail, hcons, hzero⟩ := exists_encode_cons e
      have hfirst := h e List.mem_cons_self (encodeAll es ++ (endOfContents ++ rest))
      have hothers := ih (fun c hc => h c (List.mem_cons_of_mem e hc))
        (fun c hc => hmarker c (List.mem_cons_of_mem e hc))
      have hne : octet ≠ 0 := mt hzero.mp (hmarker e List.mem_cons_self)
      rw [hcons, List.cons_append] at hfirst
      rw [encodeAll, List.append_assoc, hcons, List.cons_append, Parse.untilMarker_cons hp hne,
        hfirst]
      change ((child.untilMarker.run _).outcome.map _) = _
      rw [hothers]
      rfl

theorem rawAll_received (es : List Element) : rawAll (es.map received) = encodeAll es := by
  rw [rawAll, List.flatMap_map, encodeAll_eq_flatMap]
  congr 1
  funext e
  rw [received_eq]
  rfl

theorem contentsResult_contents {e : Element} (hframing : e.usedFraming = .definite)
    (hformed : e.Formed) (helsewhere : e.OctetsElsewhere) (hreadable : e.value.Readable)
    (hp : child.Advances) (h : ∀ c ∈ e.children, c.ReadBack child) :
    Parse.contentsResult child e.identifier
      (Header.encode ⟨e.identifier, .definite (UInt64.ofNat e.contents.length)⟩) e.contents =
      .ok e.received := by
  have hraw : Header.encode ⟨e.identifier, .definite (UInt64.ofNat e.contents.length)⟩ ++
      e.contents = e.encode := (encode_of_definite hframing).symm
  rw [Parse.contentsResult, hraw, received_eq, hframing]
  cases hc : e.identifier.constructed with
  | true =>
      have hcontents : e.contents = encodeAll e.children := if_pos hc
      have hvalue := hformed.no_value hc
      rw [if_pos rfl, hcontents, untilEnd_encodeAll hp h, hvalue]
      change Except.ok (withRaw (ofChildren _ _ _) _) = _
      rw [ofChildren, withRaw, constructed, bare, ← hc]
      rfl
  | false =>
      have hcontents : e.contents = e.value.encode := if_neg (by rw [hc]; exact Bool.false_ne_true)
      have hchildren := hformed.no_children hc
      rw [if_neg Bool.false_ne_true, hcontents, hchildren,
        Value.decode_encode hreadable (hformed.kind_eq hc) (helsewhere hc)]
      change Except.ok (withRaw (bare _ _ _) _) = _
      rw [withRaw, bare, ← hc]
      rfl

theorem closed_received {e : Element} (hframing : e.usedFraming = .indefinite)
    (hformed : e.Formed) :
    Parse.closed e.identifier (Header.encode ⟨e.identifier, .indefinite⟩)
      (e.children.map received) = e.received := by
  have hc := constructed_of_indefinite hframing
  rw [Parse.closed, rawAll_received, ← encode_of_indefinite hframing, received_eq, hframing,
    hformed.no_value hc, ofChildren, withRaw, constructed, bare, ← hc]
  rfl

/-- Octets of a tree come back as the tree, at whatever depth and whatever follows. -/
theorem readBack_of_atNodes {depth : Nat} {e : Element} (h : e.AtNodes (Returns limits) depth) :
    e.ReadBack (elementAt limits depth) := by
  induction h with
  | @node depth e here _ ih =>
      intro rest
      have hp := elementAt_advances limits (depth + 1)
      cases hframing : e.usedFraming with
      | definite =>
          rw [encode_of_definite hframing,
            Parse.outcome_encodeDefinite here.depth_le (here.length_allowed hframing),
            contentsResult_contents hframing here.formed here.octets_elsewhere here.readable hp ih]
          rfl
      | indefinite =>
          have hc := constructed_of_indefinite hframing
          rw [encode_of_indefinite hframing, List.append_assoc, List.append_assoc,
            Parse.outcome_encodeOpen here.depth_le hc,
            untilMarker_encodeAll hp ih (here.marker_free hframing), Outcome.map,
            closed_received hframing here.formed]

theorem received_same {depth : Nat} {e : Element} (h : e.AtNodes (Returns limits) depth) :
    e.received.same e = true := by
  apply same_of_nodeByNode
  refine received_nodeByNode ?_ h
  intro depth n hn
  rw [received_eq]
  exact ⟨rfl, Value.settled_same hn.readable⟩

theorem received_sameFraming {depth : Nat} {e : Element} (h : e.AtNodes (Returns limits) depth) :
    SameFraming e.received e := by
  refine received_nodeByNode ?_ h
  intro depth n _
  rw [received_eq, usedFraming]
  cases hc : n.identifier.constructed with
  | true => rfl
  | false => exact (usedFraming_eq_definite hc).symm

end Element

theorem Reading.outcome_of_atEnd {α : Type} {r : Reading α} {value : α}
    (h : r.atEnd.result = .ok value) : r.outcome = .done value r.atEnd.after := by
  unfold atEnd at h ⊢
  cases hdone : r.outcome with
  | done found rest =>
      rw [hdone] at h
      cases h
      rfl
  | refused failure rest =>
      rw [hdone] at h
      cases h
  | short gap =>
      rw [hdone] at h
      cases h

namespace Cursor

theorem next_of_done {c : Cursor} {e : Element} {rest : Octets}
    (h : ((Parse.elementAt c.limits 0).run c.rest).outcome = .done e rest) :
    c.next.result = .ok e ∧ c.next.after = { c with rest } := by
  rw [next, Reading.atEnd, h]
  exact ⟨rfl, rfl⟩

end Cursor

namespace Element

/-- Under the default limits an element is decoded where it is read to the last octet. -/
theorem decode_eq_ok_iff {octets : Octets} {e : Element} :
    (Element.decode octets).result = .ok e ↔
      ((Parse.elementAt {} 0).run octets).outcome = .done e [] := by
  have hdecode : (Element.decode octets).result = (Cursor.start {} octets).next.result >>= fun e =>
      if (Cursor.start {} octets).next.after.rest.isEmpty then .ok e
      else .error (.invalidData (.trailing (Cursor.start {} octets).next.after.remaining)) := rfl
  have hnext : (Cursor.start {} octets).next =
      { ((Parse.elementAt {} 0).run octets).atEnd with
        after := { Cursor.start {} octets with
          rest := ((Parse.elementAt {} 0).run octets).atEnd.after } } := rfl
  rw [hdecode, hnext, Reading.atEnd]
  cases ((Parse.elementAt {} 0).run octets).outcome with
  | refused failure rest => exact ⟨nofun, nofun⟩
  | short gap => exact ⟨nofun, nofun⟩
  | done found rest =>
      rw [Outcome.done.injEq]
      cases rest with
      | nil =>
          change Except.ok found = Except.ok e ↔ _
          rw [Except.ok.injEq]
          exact (and_iff_left rfl).symm
      | cons octet rest => exact ⟨nofun, nofun⟩

theorem decode_of_encodable {e : Element} (h : e.Encodable {}) :
    (Element.decode e.encode).result = .ok e.received := by
  have hdone := readBack_of_atNodes h []
  rw [List.append_nil] at hdone
  exact decode_eq_ok_iff.mpr hdone

/-- A tree that is written and read again comes back with the framings it had and with the octets
written in its cache. Readers take these octets and leave what follows them. -/
theorem encoded_tree_reads_back (limits : Limits) (e : Element) (h : e.Encodable limits)
    (rest : Octets) :
    ∃ e' : Element, e'.same e = true ∧ SameFraming e' e ∧ e'.raw = some e.encode ∧
      (∀ c : Cursor, c.limits = limits → c.rest = e.encode ++ rest →
        c.next.result = .ok e' ∧ c.next.after = { c with rest }) ∧
      (∀ s : Source, s.ahead = e.encode ++ rest →
        (s.read limits).result = .ok e' ∧ (s.read limits).after = s.drop e.encode.length ∧
          (s.read limits).after.ahead = rest) ∧
      (limits = {} → (Element.decode e.encode).result = .ok e') := by
  refine ⟨e.received, received_same h, received_sameFraming h, ?_, ?_, ?_, ?_⟩
  · rw [received_eq]
  · rintro c rfl hrest
    apply Cursor.next_of_done
    rw [hrest]
    exact readBack_of_atNodes h rest
  · intro s hs
    have hdone : ((Parse.elementAt limits 0).run s.ahead).outcome = .done e.received rest := by
      rw [hs]
      exact readBack_of_atNodes h rest
    obtain ⟨hresult, hafter⟩ := Source.read_of_done hdone
    have hcount : s.ahead.length - rest.length = e.encode.length := by
      rw [hs, List.length_append, Nat.add_sub_cancel]
    have hle : e.encode.length ≤ s.ahead.length := by
      rw [hs, List.length_append]
      exact Nat.le_add_right _ _
    rw [hcount] at hafter
    refine ⟨hresult, hafter, ?_⟩
    rw [hafter, Source.ahead_drop hle, hs, List.drop_left]
  · rintro rfl
    exact decode_of_encodable h

/-- A sequence of open length that holds a number and, under a tag defined elsewhere, two zero
octets. -/
def openSequence : Element :=
  .ofChildren (.universal true Universal.sequence) .indefinite
    [.real (.ofFields true 1023 0) "minus one",
      .bare (.contextSpecific false 0) (.octets [0, 0]) "zeros"]

theorem openSequence_built : openSequence.Built := by
  apply Built.ofChildren
  exact List.forall_mem_cons.mpr ⟨.bare rfl _, List.forall_mem_cons.mpr ⟨.bare rfl _, nofun⟩⟩

theorem openSequence_encodable : openSequence.Encodable {} := by
  apply openSequence_built.encodable
  have hnumber : (Value.real (.ofFields true 1023 0)).Readable := by
    rintro x ⟨⟩
    exact ⟨rfl, rfl⟩
  refine .node ⟨nofun, nofun, ?_, by decide, nofun⟩ ?_
  · intro _
    exact List.forall_mem_cons.mpr ⟨by decide, List.forall_mem_cons.mpr ⟨by decide, nofun⟩⟩
  · refine List.forall_mem_cons.mpr ⟨?_, List.forall_mem_cons.mpr ⟨?_, nofun⟩⟩
    · refine .node ⟨?_, hnumber, nofun, by decide, fun _ => by decide⟩ nofun
      intro _ hclass
      exact absurd rfl hclass
    · exact .node ⟨fun _ _ => rfl, nofun, nofun, by decide, fun _ => by decide⟩ nofun

theorem openSequence_reads_back :
    openSequence.Encodable {} ∧ openSequence.encode.length = 13 ∧
      ∃ e' : Element, e'.same openSequence = true ∧
        (Element.decode openSequence.encode).result = .ok e' := by
  obtain ⟨e', hsame, -, -, -, -, hdecode⟩ :=
    encoded_tree_reads_back {} openSequence openSequence_encodable []
  exact ⟨openSequence_encodable, by decide, e', hsame, hdecode rfl⟩

end Element

end BasicEncoding
