import BasicEncoding.Proofs.Header.Spelling

/-! The two framings of constructed contents. Contents of definite length are taken whole and then
divided; contents of open length are read child by child as they come, up to a marker. Either way
the children are those that the contents are divided into, and a marker is in the way only of a
child that begins as markers do. -/
namespace BasicEncoding

/-- An element that no marker is taken for where contents are open. -/
def Element.Unmarked (e : Element) : Prop :=
  (e.raw.getD []).head? ≠ some 0

instance (e : Element) : Decidable e.Unmarked :=
  inferInstanceAs (Decidable (_ ≠ _))

/-- Derived elements are unmarked where their octets are. -/
theorem unmarked_values_iff {limits : Limits} {depth : Nat} {parts : List (Octets × Element)}
    (h : ∀ part ∈ parts, Derives limits depth part.1 part.2) :
    (∀ c ∈ values parts, c.Unmarked) ↔ ∀ part ∈ parts, part.1.head? ≠ some 0 := by
  have hraw : ∀ part ∈ parts, part.2.raw.getD [] = part.1 := by
    intro part hpart
    rw [(h part hpart).raw_eq, Option.getD_some]
  constructor
  · intro hunmarked part hpart
    have hchild : part.2.Unmarked := hunmarked part.2 (List.mem_map_of_mem hpart)
    rwa [Element.Unmarked, hraw part hpart] at hchild
  · intro hunmarked c hc
    obtain ⟨part, hpart, rfl⟩ := List.mem_map.mp hc
    rw [Element.Unmarked, hraw part hpart]
    exact hunmarked part hpart

namespace Parse

variable {limits : Limits} {depth : Nat} {header : Header} {seen octets rest : Octets} {e : Element}

/-- What stands behind an accepted header decides what it comes to. -/
theorem elementAt_behind (hdepth : depth ≤ limits.maxDepth.toNat)
    (haccepts : HeaderScan.start.Accepts seen header) (octets : Octets) :
    ((elementAt limits depth).run (seen ++ octets)).outcome =
      ((behindHeader limits (elementAt limits (depth + 1)) header seen).run octets).outcome := by
  have hheader : (Parse.header.run (seen ++ octets)).outcome = .done (header, seen) octets :=
    header_eq_done_iff.mpr ⟨rfl, haccepts⟩
  rw [outcome_elementAt hdepth, hheader]
  rfl

/-- Open contents end with the first marker that stands where a child could; the octets ahead of it
are divided as contents at hand are. -/
theorem behindHeader_open_iff (hlength : header.length = .indefinite)
    (hform : header.identifier.constructed = true) :
    ((behindHeader limits (elementAt limits depth) header seen).run octets).outcome =
        .done e rest ↔
      ∃ contents children, octets = contents ++ (endOfContents ++ rest) ∧
        (readChildren limits depth contents).outcome = .done children [] ∧
        (∀ c ∈ children, c.Unmarked) ∧
        e = { identifier := header.identifier, value := .nothing, children,
              framing := .indefinite, raw := some (seen ++ contents ++ endOfContents),
              label := "" } := by
  have huntilMarker : ∀ {children : List Element},
      ((elementAt limits depth).untilMarker.run octets).outcome = .done children rest ↔
        ∃ parts, octets = joined parts ++ (endOfContents ++ rest) ∧ children = values parts ∧
          (∀ part ∈ parts, Derives limits depth part.1 part.2) ∧
          ∀ part ∈ parts, part.1.head? ≠ some 0 :=
    (reads_elementAt limits depth).untilMarker (elementAt_advances limits depth)
  rw [outcome_behindHeader_indefinite hlength, Outcome.map_eq_done_iff]
  constructor
  · rintro ⟨children, hchildren, rfl⟩
    obtain ⟨parts, hoctets, rfl, hparts, hunmarked⟩ := huntilMarker.mp hchildren
    refine ⟨joined parts, values parts, hoctets,
      readChildren_eq_done_iff.mpr ⟨rfl, parts, rfl, rfl, hparts⟩,
      (unmarked_values_iff hparts).mpr hunmarked, ?_⟩
    rw [closed_eq hform, rawAll_values hparts]
  · rintro ⟨contents, children, hoctets, hread, hunmarked, rfl⟩
    obtain ⟨-, parts, rfl, rfl, hparts⟩ := readChildren_eq_done_iff.mp hread
    refine ⟨values parts, huntilMarker.mpr ⟨parts, hoctets, rfl, hparts,
      (unmarked_values_iff hparts).mp hunmarked⟩, ?_⟩
    rw [closed_eq hform, rawAll_values hparts]

/-- Contents of a stated length are divided as contents at hand are, whatever their children begin
with. -/
theorem behindHeader_stated_iff {count : UInt64} (hlength : header.length = .definite count)
    (hform : header.identifier.constructed = true) :
    ((behindHeader limits (elementAt limits depth) header seen).run octets).outcome =
        .done e rest ↔
      count ≤ limits.maxContentLength ∧ ∃ contents children, octets = contents ++ rest ∧
        contents.length = count.toNat ∧
        (readChildren limits depth contents).outcome = .done children [] ∧
        e = { identifier := header.identifier, value := .nothing, children, framing := .definite,
              raw := some (seen ++ contents), label := "" } := by
  rw [behindHeader_definite_iff hlength]
  refine and_congr_right fun _ => exists_congr fun contents => ?_
  rw [contentsResult_constructed hform]
  constructor
  · rintro ⟨hoctets, hcount, children, last, hdone, rfl⟩
    have hread := readChildren_eq_done_iff_untilEnd.mpr ⟨rfl, last, hdone⟩
    exact ⟨children, hoctets, hcount, hread, rfl⟩
  · rintro ⟨children, hoctets, hcount, hread, rfl⟩
    obtain ⟨-, last, hdone⟩ := readChildren_eq_done_iff_untilEnd.mp hread
    exact ⟨hoctets, hcount, children, last, hdone, rfl⟩

end Parse

namespace Source

variable {limits : Limits} {s : Source} {taken more : Octets} {e : Element}

theorem read_takes_iff (h : s.ahead = taken ++ more) :
    ((s.read limits).result = .ok e ∧ (s.read limits).after = s.drop taken.length) ↔
      ((Parse.elementAt limits 0).run s.ahead).outcome = .done e more := by
  constructor
  · rintro ⟨hresult, hafter⟩
    obtain ⟨rest, hdone⟩ := exists_done_of_read hresult
    obtain ⟨part, hpart, -⟩ := (Parse.reads_elementAt limits 0 _ _ _).mp hdone
    have hended : ((Parse.elementAt limits 0).run s.ahead).outcome = .ended (.ok e) rest := hdone
    obtain ⟨-, -, hrest⟩ := read_takes hended hpart
    have hle : taken.length ≤ s.ahead.length := by
      rw [h, List.length_append]
      exact Nat.le_add_right _ _
    rw [hafter, ahead_drop hle, h, List.drop_left] at hrest
    rw [hrest]
    exact hdone
  · intro hdone
    have hended : ((Parse.elementAt limits 0).run s.ahead).outcome = .ended (.ok e) more := hdone
    obtain ⟨hresult, hafter, -⟩ := read_takes hended h
    exact ⟨hresult, hafter⟩

/-- Behind the octets of a constructed identifier, contents of open length and contents of a stated
one are read as the children that they are divided into. Open contents must have a marker behind
them and no child that begins as it does, stated ones must be as long as stated and allowed; nothing
else is read, and an element differs in its framing and in its own octets only. -/
theorem framings_read_same_children (limits : Limits) {i : Identifier} {octets : Octets}
    (spelled : i.Spelled octets) (form : i.constructed = true) (s : Source)
    (behind more : Octets) (e : Element) :
    (∀ header, header = octets ++ [Length.openOctet] → s.ahead = header ++ behind ++ more →
      (((s.read limits).result = .ok e ∧
          (s.read limits).after = s.drop (header ++ behind).length) ↔
        ∃ contents children, behind = contents ++ endOfContents ∧
          (readChildren limits 1 contents).outcome = .done children [] ∧
          (∀ c ∈ children, c.Unmarked) ∧
          e = { identifier := i, value := .nothing, children, framing := .indefinite,
                raw := some (header ++ contents ++ endOfContents), label := "" })) ∧
    ∀ header count length, header = octets ++ length → Length.Spelled (.definite count) length →
      s.ahead = header ++ behind ++ more →
      (((s.read limits).result = .ok e ∧
          (s.read limits).after = s.drop (header ++ behind).length) ↔
        count ≤ limits.maxContentLength ∧ behind.length = count.toNat ∧
          ∃ children, (readChildren limits 1 behind).outcome = .done children [] ∧
            e = { identifier := i, value := .nothing, children, framing := .definite,
                  raw := some (header ++ behind), label := "" }) := by
  have hdepth : 0 ≤ limits.maxDepth.toNat := Nat.zero_le _
  constructor
  · rintro header rfl hahead
    have haccepts : HeaderScan.start.Accepts (octets ++ [Length.openOctet]) ⟨i, .indefinite⟩ :=
      HeaderScan.accepts_start.mpr ⟨octets, _, rfl, spelled, .indefinite, fun _ => form⟩
    rw [read_takes_iff hahead, hahead, List.append_assoc (octets ++ [Length.openOctet]),
      Parse.elementAt_behind hdepth haccepts, Parse.behindHeader_open_iff rfl form]
    simp only [← List.append_assoc _ endOfContents more, List.append_cancel_right_eq]
  · rintro header count length rfl hlength hahead
    have haccepts : HeaderScan.start.Accepts (octets ++ length) ⟨i, .definite count⟩ :=
      HeaderScan.accepts_start.mpr ⟨octets, length, rfl, spelled, hlength, nofun⟩
    rw [read_takes_iff hahead, hahead, List.append_assoc (octets ++ length),
      Parse.elementAt_behind hdepth haccepts, Parse.behindHeader_stated_iff rfl form]
    refine and_congr_right fun _ => ?_
    constructor
    · rintro ⟨contents, children, hcontents, hcount, hread, rfl⟩
      obtain rfl := List.append_cancel_right hcontents
      exact ⟨hcount, children, hread, rfl⟩
    · rintro ⟨hcount, children, hread, rfl⟩
      exact ⟨behind, children, rfl, hcount, hread, rfl⟩

/-- Contents that nest both framings, with zeros in front of a child's contents. -/
def nestedContents : Octets :=
  [0x30, 0x04, 0x04, 0x02, 0x00, 0x00, 0x30, 0x80, 0x05, 0x00, 0x00, 0x00]

def nestedChildren : List Element :=
  [(Element.ofChildren (.universal true Universal.sequence) .definite
      [(Element.octetString [0x00, 0x00] "").withRaw [0x04, 0x02, 0x00, 0x00]]).withRaw
        [0x30, 0x04, 0x04, 0x02, 0x00, 0x00],
    (Element.ofChildren (.universal true Universal.sequence) .indefinite
      [(Element.null "").withRaw [0x05, 0x00]]).withRaw [0x30, 0x80, 0x05, 0x00, 0x00, 0x00]]

/-- A sequence of these contents in either framing, with an octet behind it. -/
theorem nestedContents_read_in_both_framings :
    (readChildren {} 1 nestedContents).outcome = .done nestedChildren [] ∧
      (∀ c ∈ nestedChildren, c.Unmarked) ∧
      (Source.read {} [.data [0x30, 0x80], .stall, .data (nestedContents ++ [0, 0, 0xAA])]).result =
        .ok ((Element.ofChildren (.universal true Universal.sequence) .indefinite
          nestedChildren).withRaw ([0x30, 0x80] ++ nestedContents ++ endOfContents)) ∧
      (Source.read {} [.data [0x30, 0x0C], .stall, .data (nestedContents ++ [0xAA])]).result =
        .ok ((Element.ofChildren (.universal true Universal.sequence) .definite
          nestedChildren).withRaw ([0x30, 0x0C] ++ nestedContents)) := by
  have hspelled : (Identifier.universal true Universal.sequence).Spelled [0x30] :=
    @Identifier.Spelled.short _ 16 rfl (by decide)
  have hread : (readChildren {} 1 nestedContents).outcome = .done nestedChildren [] := rfl
  have hunmarked : ∀ c ∈ nestedChildren, c.Unmarked := by decide
  refine ⟨hread, hunmarked, ?_, ?_⟩
  · obtain ⟨hopen, -⟩ := framings_read_same_children {} hspelled rfl
      [.data [0x30, 0x80], .stall, .data (nestedContents ++ [0, 0, 0xAA])]
      (nestedContents ++ endOfContents) [0xAA] _
    exact ((hopen _ rfl rfl).mpr ⟨nestedContents, nestedChildren, rfl, hread, hunmarked, rfl⟩).1
  · obtain ⟨-, hstated⟩ := framings_read_same_children {} hspelled rfl
      [.data [0x30, 0x0C], .stall, .data (nestedContents ++ [0xAA])] nestedContents [0xAA] _
    have hlength : Length.Spelled (.definite 0x0C) [0x0C] := @Length.Spelled.short 0x0C (by decide)
    exact ((hstated _ _ _ rfl hlength rfl).mpr
      ⟨by decide, rfl, nestedChildren, hread, rfl⟩).1

end Source

end BasicEncoding
