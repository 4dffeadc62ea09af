import BasicEncoding.Proofs.Assembly.Outlook
import BasicEncoding.Proofs.Header.Answers

/-! Assemblies as buffers. What was taken of an unfinished element can stand in five buffers that
know nothing of one another: the opened elements, each with its octets so far, a header, contents
that are due, the part of them that is there, and half a marker. They are filled and emptied one by
one, and only an error empties all of them. Octet by octet they agree with an assembly; that they
hold every octet taken and are in use one at a time is an invariant, kept by each octet. -/
namespace BasicEncoding

namespace Buffers

/-- An element of open length, with its octets up to the last child that is there. -/
structure Opened where
  identifier : Identifier
  children : List Element
  raw : Octets

/-- A header of definite length whose contents are due. -/
structure Pending where
  identifier : Identifier
  raw : Octets
  length : Nat

end Buffers

/-- The opened elements stand innermost first. -/
structure Buffers where
  opened : List Buffers.Opened := []
  header : HeaderScan := .start
  pending : Option Buffers.Pending := none
  content : Octets := []
  markerBegun : Bool := false

namespace Buffers

def fresh : Buffers := {}

/-- What an octet leads to: the buffers afterwards and, where an element ends or fails, the result.
-/
structure Step where
  after : Buffers
  result : Option (Except Failure Element) := none

def Opened.append (o : Opened) (child : Element) : Opened :=
  { o with children := o.children ++ [child], raw := o.raw ++ child.raw.getD [] }

def Opened.close (o : Opened) : Element :=
  (Element.ofChildren o.identifier .indefinite o.children).withRaw (o.raw ++ endOfContents)

def failed (failure : Failure) : Step :=
  ⟨fresh, some (.error failure)⟩

/-- Puts a finished element into the innermost opened one; without one, it is the result, and the
buffers stay as they are. -/
def attach (b : Buffers) (e : Element) : Step :=
  match b.opened with
  | [] => ⟨b, some (.ok e)⟩
  | o :: outer => ⟨{ b with opened := o.append e :: outer }, none⟩

def complete (limits : Limits) (b : Buffers) (p : Pending) : Step :=
  let child := Parse.elementAt limits (b.opened.length + 1)
  match ((Parse.ofContents child p.identifier p.raw b.content).run []).outcome with
  | .done e _ => attach { b with pending := none, content := [] } e
  | .refused failure _ => failed failure
  | .short gap => failed gap.failure

/-- Finishes what is due as soon as it is there. -/
def settle (limits : Limits) (b : Buffers) (p : Pending) : Step :=
  if b.content.length < p.length then ⟨b, none⟩ else complete limits b p

def behindHeader (limits : Limits) (b : Buffers) (header : Header) (raw : Octets) : Step :=
  match header.length with
  | .indefinite => ⟨{ b with opened := ⟨header.identifier, [], raw⟩ :: b.opened }, none⟩
  | .definite count =>
    match limits.checkContentLength count with
    | .error failure => failed failure
    | .ok () =>
      let due : Pending := ⟨header.identifier, raw, count.toNat⟩
      settle limits { b with pending := some due } due

def pushHeader (limits : Limits) (b : Buffers) (octet : UInt8) : Step :=
  match b.header.push octet with
  | (.ok none, scan) => ⟨{ b with header := scan }, none⟩
  | (.ok (some header), scan) => behindHeader limits { b with header := .start } header scan.octets
  | (.error defect, _) => failed (.invalidData defect)

def pushMarker (b : Buffers) (octet : UInt8) : Step :=
  if octet ≠ 0 then failed (.invalidData .markerNotClosed)
  else
    match b.opened with
    | [] => ⟨{ b with markerBegun := false }, none⟩
    | o :: outer => attach { b with opened := outer, markerBegun := false } o.close

/-- Between two elements a zero octet begins the marker, if one is due, and any other is the first
of an element. -/
def pushBetween (limits : Limits) (b : Buffers) (octet : UInt8) : Step :=
  if octet = 0 ∧ ¬b.opened.isEmpty then ⟨{ b with markerBegun := true }, none⟩
  else
    match limits.checkDepth b.opened.length with
    | .error failure => failed failure
    | .ok () => pushHeader limits b octet

/-- One octet. Contents that are due are asked for first, then a marker, then a header. -/
def push (limits : Limits) (b : Buffers) (octet : UInt8) : Step :=
  match b.pending with
  | some p => settle limits { b with content := b.content ++ [octet] } p
  | none =>
    if b.markerBegun then b.pushMarker octet
    else if b.header.isFresh then pushBetween limits b octet
    else pushHeader limits b octet

def pushAll (limits : Limits) (b : Buffers) : Octets → Option Buffers
  | [] => some b
  | octet :: rest =>
    match b.push limits octet with
    | ⟨b, none⟩ => pushAll limits b rest
    | ⟨_, some _⟩ => none

/-- Some buffer is in use. Contents that are there do not count, since others are due with them. -/
def isMidElement (b : Buffers) : Bool :=
  !b.opened.isEmpty || !b.header.octets.isEmpty || b.pending.isSome || b.markerBegun

def openedOctets (opened : List Opened) : Octets :=
  opened.reverse.flatMap Opened.raw

/-- All octets that the buffers hold, in the order in which they were taken. -/
def held (b : Buffers) : Octets :=
  openedOctets b.opened ++
    match b.pending with
    | some p => p.raw ++ b.content
    | none => if b.header.octets = [] then if b.markerBegun then [0] else [] else b.header.octets

/-! ### What the buffers hold -/

/-- An opened element has the octets of its header and, behind them, those of its children. -/
def Opened.Filled (o : Opened) : Prop :=
  ∃ header, HeaderScan.start.Accepts header ⟨o.identifier, .indefinite⟩ ∧
    o.raw = header ++ rawAll o.children

/-- Buffers that octets can lead to. At most one of the header, what is due and the marker is in
use. -/
structure Consistent (b : Buffers) : Prop where
  opened_filled : ∀ o ∈ b.opened, o.Filled
  header_leads : HeaderScan.start.Leads b.header.octets b.header
  pending_accepted : ∀ p, b.pending = some p → ∃ count : UInt64, count.toNat = p.length ∧
    HeaderScan.start.Accepts p.raw ⟨p.identifier, .definite count⟩
  pending_alone : b.pending ≠ none → b.header.octets = [] ∧ b.markerBegun = false
  content_due : b.content ≠ [] → b.pending ≠ none
  content_lt : ∀ p, b.pending = some p → b.content.length < p.length
  marker_alone : b.markerBegun = true → b.header.octets = []
  marker_opened : b.markerBegun = true → b.opened ≠ []

variable {limits : Limits} {b : Buffers} {opened : List Opened} {scan : HeaderScan} {p : Pending}
  {octets content : Octets} {octet : UInt8}

theorem openedOctets_cons (o : Opened) (outer : List Opened) :
    openedOctets (o :: outer) = openedOctets outer ++ o.raw := by
  unfold openedOctets
  rw [List.reverse_cons, List.flatMap_append, List.flatMap_singleton]

theorem openedOctets_eq_nil_iff (h : ∀ o ∈ opened, o.Filled) :
    openedOctets opened = [] ↔ opened = [] := by
  cases opened with
  | nil => exact iff_of_true rfl rfl
  | cons o outer =>
      obtain ⟨header, haccepts, hfilled⟩ := h o List.mem_cons_self
      have hraw : o.raw ≠ [] := by
        rw [hfilled]
        exact List.append_ne_nil_of_left_ne_nil haccepts.ne_nil _
      rw [openedOctets_cons]
      exact iff_of_false (List.append_ne_nil_of_right_ne_nil _ hraw) (List.cons_ne_nil _ _)

/-! Consistent buffers are those with a header, perhaps not begun, those with contents due, and
those with half a marker. -/

theorem consistent_header (hopened : ∀ o ∈ opened, o.Filled)
    (hleads : HeaderScan.start.Leads scan.octets scan) :
    Consistent { opened, header := scan } where
  opened_filled := hopened
  header_leads := hleads
  pending_accepted := nofun
  pending_alone h := absurd rfl h
  content_due h := absurd rfl h
  content_lt := nofun
  marker_alone := nofun
  marker_opened := nofun

theorem consistent_contents (hopened : ∀ o ∈ opened, o.Filled) {count : UInt64}
    (hcount : count.toNat = p.length)
    (haccepts : HeaderScan.start.Accepts p.raw ⟨p.identifier, .definite count⟩)
    (hless : content.length < p.length) :
    Consistent { opened, pending := some p, content } where
  opened_filled := hopened
  header_leads := .nil _
  pending_accepted := by
    rintro _ ⟨⟩
    exact ⟨count, hcount, haccepts⟩
  pending_alone _ := ⟨rfl, rfl⟩
  content_due _ := Option.some_ne_none p
  content_lt := by
    rintro _ ⟨⟩
    exact hless
  marker_alone := nofun
  marker_opened := nofun

theorem consistent_marker (hopened : ∀ o ∈ opened, o.Filled) (hne : opened ≠ []) :
    Consistent { opened, markerBegun := true } where
  opened_filled := hopened
  header_leads := .nil _
  pending_accepted := nofun
  pending_alone h := absurd rfl h
  content_due h := absurd rfl h
  content_lt := nofun
  marker_alone _ := rfl
  marker_opened _ := hne

theorem fresh_consistent : fresh.Consistent :=
  consistent_header (List.forall_mem_nil _) (.nil _)

theorem eq_start_of_leads (h : HeaderScan.start.Leads scan.octets scan) (hnil : scan.octets = []) :
    scan = .start := by
  rw [hnil] at h
  exact h.2.symm

theorem Consistent.cases (h : b.Consistent) :
    (∃ opened scan, b = { opened, header := scan }) ∨
    (∃ opened p content, b = { opened, pending := some p, content }) ∨
    ∃ opened, b = { opened, markerBegun := true } := by
  obtain ⟨opened, header, pending, content, markerBegun⟩ := b
  cases pending with
  | some p =>
      obtain ⟨hheader, hmarker⟩ := h.pending_alone (Option.some_ne_none p)
      obtain rfl := eq_start_of_leads h.header_leads hheader
      obtain rfl : markerBegun = false := hmarker
      exact .inr (.inl ⟨opened, p, content, rfl⟩)
  | none =>
      obtain rfl : content = [] := Decidable.not_not.mp fun hne => h.content_due hne rfl
      cases markerBegun with
      | false => exact .inl ⟨opened, header, rfl⟩
      | true =>
          obtain rfl := eq_start_of_leads h.header_leads (h.marker_alone rfl)
          exact .inr (.inr ⟨opened, rfl⟩)

theorem held_header (opened : List Opened) (scan : HeaderScan) :
    held { opened, header := scan } = openedOctets opened ++ scan.octets := by
  unfold held
  dsimp only
  split
  · next hnil =>
    rw [hnil]
    rfl
  · rfl

theorem held_contents (opened : List Opened) (p : Pending) (content : Octets) :
    held { opened, pending := some p, content } = openedOctets opened ++ (p.raw ++ content) := rfl

theorem held_opened (opened : List Opened) : held { opened } = openedOctets opened := by
  have hheld := held_header opened .start
  rwa [show HeaderScan.start.octets = [] from rfl, List.append_nil] at hheld

/-- A step behind which the buffers hold these octets, or nothing if there is a result. -/
structure Step.Holds (octets : Octets) (step : Step) : Prop where
  consistent : step.after.Consistent
  held_eq : step.result = none → step.after.held = octets
  restarts : ∀ result, step.result = some result → step.after = fresh

theorem failed_holds (failure : Failure) (octets : Octets) : (failed failure).Holds octets :=
  ⟨fresh_consistent, nofun, fun _ _ => rfl⟩

theorem attach_holds (hopened : ∀ o ∈ opened, o.Filled) {e : Element} (hraw : e.raw = some octets) :
    (attach { opened } e).Holds (openedOctets opened ++ octets) := by
  cases opened with
  | nil => exact ⟨fresh_consistent, nofun, fun _ _ => rfl⟩
  | cons o outer =>
      obtain ⟨hfirst, houter⟩ := List.forall_mem_cons.mp hopened
      obtain ⟨header, haccepts, hfilled⟩ := hfirst
      have hgrown : (o.append e).Filled := by
        refine ⟨header, haccepts, ?_⟩
        unfold Opened.append rawAll
        rw [hfilled, List.flatMap_append, List.flatMap_singleton, List.append_assoc]
        rfl
      refine ⟨consistent_header (List.forall_mem_cons.mpr ⟨hgrown, houter⟩) (.nil _), ?_, nofun⟩
      intro _
      have happended : (o.append e).raw = o.raw ++ octets := by
        rw [Opened.append, hraw, Option.getD_some]
      change held { opened := o.append e :: outer } = _
      rw [held_opened, openedOctets_cons, openedOctets_cons, happended, List.append_assoc]

theorem complete_holds (hopened : ∀ o ∈ opened, o.Filled) :
    (complete limits { opened, pending := some p, content } p).Holds
      (openedOctets opened ++ (p.raw ++ content)) := by
  unfold complete
  dsimp only
  rw [Parse.outcome_ofContents]
  cases hresult : Parse.contentsResult (Parse.elementAt limits (opened.length + 1)) p.identifier
    p.raw content with
  | ok e => exact attach_holds hopened (Parse.contentsResult_raw hresult)
  | error failure => exact failed_holds failure _

theorem settle_holds (hopened : ∀ o ∈ opened, o.Filled) {count : UInt64}
    (hcount : count.toNat = p.length)
    (haccepts : HeaderScan.start.Accepts p.raw ⟨p.identifier, .definite count⟩) :
    (settle limits { opened, pending := some p, content } p).Holds
      (openedOctets opened ++ (p.raw ++ content)) := by
  unfold settle
  dsimp only
  split
  · next hless => exact ⟨consistent_contents hopened hcount haccepts hless, fun _ => rfl, nofun⟩
  · exact complete_holds hopened

theorem behindHeader_holds (hopened : ∀ o ∈ opened, o.Filled) {header : Header}
    (haccepts : HeaderScan.start.Accepts octets header) :
    (behindHeader limits { opened } header octets).Holds (openedOctets opened ++ octets) := by
  obtain ⟨identifier, length⟩ := header
  unfold behindHeader
  cases length with
  | indefinite =>
      have hfilled : (⟨identifier, [], octets⟩ : Opened).Filled :=
        ⟨octets, haccepts, (List.append_nil octets).symm⟩
      refine ⟨consistent_header (List.forall_mem_cons.mpr ⟨hfilled, hopened⟩) (.nil _), ?_, nofun⟩
      intro _
      dsimp only
      rw [held_opened, openedOctets_cons]
  | definite count =>
      dsimp only
      split
      · exact failed_holds _ _
      · have hsettled := @settle_holds limits opened ⟨identifier, octets, count.toNat⟩ [] hopened
          count rfl haccepts
        rwa [List.append_nil] at hsettled

theorem pushHeader_holds (hopened : ∀ o ∈ opened, o.Filled)
    (hleads : HeaderScan.start.Leads scan.octets scan) (octet : UInt8) :
    (pushHeader limits { opened, header := scan } octet).Holds
      (openedOctets opened ++ (scan.octets ++ [octet])) := by
  have hseen := HeaderScan.octets_push scan octet
  unfold pushHeader
  dsimp only
  rcases hpush : scan.push octet with ⟨defect | found, next⟩
  · exact failed_holds _ _
  · rw [hpush] at hseen
    cases found with
    | none =>
        have hnext : HeaderScan.start.Leads next.octets next := by
          rw [hseen]
          exact hleads.append (.cons hpush (.nil _))
        refine ⟨consistent_header hopened hnext, ?_, nofun⟩
        intro _
        dsimp only
        rw [held_header, hseen]
    | some header =>
        dsimp only at hseen ⊢
        rw [← hseen]
        refine behindHeader_holds hopened ?_
        rw [hseen]
        exact hleads.accepts hpush

theorem pushBetween_holds (hopened : ∀ o ∈ opened, o.Filled) (octet : UInt8) :
    (pushBetween limits { opened } octet).Holds (openedOctets opened ++ [octet]) := by
  unfold pushBetween
  dsimp only
  split
  · next hmarker =>
    obtain ⟨rfl, hne⟩ := hmarker
    have hsome : opened ≠ [] := fun hnil => hne (List.isEmpty_iff.mpr hnil)
    exact ⟨consistent_marker hopened hsome, fun _ => rfl, nofun⟩
  · split
    · exact failed_holds _ _
    · exact @pushHeader_holds limits opened .start hopened (.nil _) octet

theorem pushMarker_holds (hopened : ∀ o ∈ opened, o.Filled) (hne : opened ≠ []) (octet : UInt8) :
    (pushMarker { opened, markerBegun := true } octet).Holds
      (openedOctets opened ++ [0] ++ [octet]) := by
  unfold pushMarker
  dsimp only
  split
  · exact failed_holds _ _
  · next hzero =>
    obtain rfl : octet = 0 := Decidable.not_not.mp hzero
    cases opened with
    | nil => exact absurd rfl hne
    | cons o outer =>
        obtain ⟨-, houter⟩ := List.forall_mem_cons.mp hopened
        have hattached := attach_holds houter (e := o.close) rfl
        rw [openedOctets_cons, List.append_assoc, List.append_assoc]
        exact hattached

/-- A step: an octet is held with the others, or comes to a result that leaves nothing. -/
theorem push_holds (limits : Limits) (h : b.Consistent) (octet : UInt8) :
    (b.push limits octet).Holds (b.held ++ [octet]) := by
  have hopened := h.opened_filled
  rcases h.cases with ⟨opened, scan, rfl⟩ | ⟨opened, p, content, rfl⟩ | ⟨opened, rfl⟩
  · rw [held_header, List.append_assoc]
    change (if scan.isFresh then pushBetween limits { opened, header := scan } octet
      else pushHeader limits { opened, header := scan } octet).Holds _
    split
    · next hfresh =>
      have hnil : scan.octets = [] := List.reverse_eq_nil_iff.mpr (List.isEmpty_iff.mp hfresh)
      obtain rfl := eq_start_of_leads h.header_leads hnil
      exact pushBetween_holds hopened octet
    · exact pushHeader_holds hopened h.header_leads octet
  · obtain ⟨count, hcount, haccepts⟩ := h.pending_accepted p rfl
    have hsettled := @settle_holds limits opened p (content ++ [octet]) hopened count hcount
      haccepts
    rw [held_contents, List.append_assoc, List.append_assoc]
    exact hsettled
  · exact pushMarker_holds hopened (h.marker_opened rfl) octet

/-- A run: octets that come to no result are held behind those that were. -/
theorem pushAll_holds (h : b.Consistent) {c : Buffers} (hpush : b.pushAll limits octets = some c) :
    c.Consistent ∧ c.held = b.held ++ octets := by
  induction octets generalizing b with
  | nil =>
      cases hpush
      exact ⟨h, (List.append_nil _).symm⟩
  | cons octet rest ih =>
      have hstep := push_holds limits h octet
      rw [pushAll] at hpush
      split at hpush
      · next next heq =>
        rw [heq] at hstep
        obtain ⟨hconsistent, hheld⟩ := ih hstep.consistent hpush
        refine ⟨hconsistent, ?_⟩
        rw [hheld, hstep.held_eq rfl, List.append_assoc, List.singleton_append]
      · cases hpush

theorem isMidElement_iff (h : b.Consistent) : b.isMidElement = true ↔ b.held ≠ [] := by
  have hopened : openedOctets b.opened = [] ↔ b.opened = [] :=
    openedOctets_eq_nil_iff h.opened_filled
  rcases h.cases with ⟨opened, scan, rfl⟩ | ⟨opened, p, content, rfl⟩ | ⟨opened, rfl⟩
  · dsimp only at hopened
    unfold isMidElement
    simp only [held_header, Option.isSome_none, Bool.or_false, Bool.or_eq_true,
      Bool.not_eq_eq_eq_not, Bool.not_true, List.isEmpty_eq_false_iff, ne_eq,
      List.append_eq_nil_iff, hopened, Classical.not_and_iff_not_or_not]
  · obtain ⟨count, -, haccepts⟩ := h.pending_accepted p rfl
    unfold isMidElement
    rw [held_contents, Option.isSome_some, Bool.or_true]
    have hraw : p.raw ++ content ≠ [] := List.append_ne_nil_of_left_ne_nil haccepts.ne_nil content
    exact iff_of_true rfl (List.append_ne_nil_of_right_ne_nil _ hraw)
  · unfold isMidElement
    rw [Bool.or_true]
    exact iff_of_true rfl (List.append_ne_nil_of_right_ne_nil _ (List.cons_ne_nil _ _))

end Buffers

/-! ### Agreement with assemblies -/

namespace Assembly

variable {limits : Limits}

def Opened.buffered (o : Opened) : Buffers.Opened :=
  ⟨o.identifier, o.children.reverse, o.header ++ rawAll o.children.reverse⟩

def buffers (a : Assembly) : Buffers :=
  let opened := a.opened.map Opened.buffered
  match a.phase with
  | .header scan => { opened, header := scan }
  | .contents identifier header received missing =>
    { opened, pending := some ⟨identifier, header, received.length + missing⟩,
      content := received.reverse }
  | .marker => { opened, markerBegun := true }

def Fed.step (fed : Fed) : Buffers.Step :=
  ⟨fed.after.buffers, fed.result⟩

theorem buffered_append (o : Opened) (e : Element) :
    o.buffered.append e = { o with children := e :: o.children }.buffered := by
  unfold Opened.buffered Buffers.Opened.append rawAll
  simp only [List.reverse_cons, List.flatMap_append, List.flatMap_singleton, List.append_assoc]

theorem step_attach (opened : List Opened) (e : Element) (notes : List Note) :
    (attach opened e notes).step =
      Buffers.attach { opened := opened.map Opened.buffered } e := by
  cases opened with
  | nil => rfl
  | cons o outer =>
      rw [List.map_cons, Buffers.attach]
      dsimp only
      rw [buffered_append]
      rfl

theorem step_complete (opened : List Opened) (identifier : Identifier)
    (header contents : Octets) (length : Nat) (notes : List Note) :
    (complete limits opened identifier header contents notes).step =
      Buffers.complete limits
        { opened := opened.map Opened.buffered, pending := some ⟨identifier, header, length⟩,
          content := contents } ⟨identifier, header, length⟩ := by
  unfold complete Buffers.complete
  dsimp only
  rw [List.length_map]
  cases ((Parse.ofContents (Parse.elementAt limits (opened.length + 1)) identifier header
    contents).run []).outcome with
  | done e rest => exact step_attach opened e _
  | refused failure rest => rfl
  | short gap => rfl

theorem step_behindHeader (opened : List Opened) (header : Header) (octets : Octets) :
    (behindHeader limits opened header octets).step =
      Buffers.behindHeader limits { opened := opened.map Opened.buffered } header octets := by
  unfold behindHeader Buffers.behindHeader
  dsimp only
  cases header.length with
  | indefinite =>
      have hbuffered : (⟨header.identifier, octets, []⟩ : Opened).buffered =
          ⟨header.identifier, [], octets⟩ := congrArg (Buffers.Opened.mk _ _) (List.append_nil _)
      unfold Fed.step buffers
      rw [List.map_cons, hbuffered]
  | definite count =>
      dsimp only
      cases limits.checkContentLength count with
      | error failure => rfl
      | ok _ =>
          dsimp only [Buffers.settle, List.length_nil]
          by_cases hzero : count = 0
          · subst hzero
            have hnone : ¬0 < (0 : UInt64).toNat := Nat.lt_irrefl 0
            rw [if_pos rfl, if_neg hnone]
            exact step_complete opened _ _ _ _ _
          · have hpos : 0 < count.toNat :=
              Nat.pos_of_ne_zero fun hnone => hzero (UInt64.toNat_inj.mp hnone)
            rw [if_neg hzero, if_pos hpos]
            unfold Fed.step buffers
            dsimp only
            rw [List.length_nil, Nat.zero_add]
            rfl

theorem step_feedHeader (opened : List Opened) (scan : HeaderScan) (octet : UInt8) :
    (feedHeader limits opened scan octet).step =
      Buffers.pushHeader limits { opened := opened.map Opened.buffered, header := scan } octet := by
  unfold feedHeader Buffers.pushHeader
  dsimp only
  rcases scan.push octet with ⟨defect | found, next⟩
  · rfl
  · cases found with
    | none => rfl
    | some header => exact step_behindHeader opened header next.octets

theorem isEmpty_buffered (opened : List Opened) :
    (opened.map Opened.buffered).isEmpty = opened.isEmpty := by
  cases opened <;> rfl

/-- An octet does to the buffers what it does to the assembly. -/
theorem step_feed {a : Assembly} (h : a.Sound) (octet : UInt8) :
    (feed limits a octet).step = a.buffers.push limits octet := by
  obtain ⟨opened, phase⟩ := a
  cases phase with
  | contents identifier header received missing =>
      change _ = Buffers.settle limits
        { opened := opened.map Opened.buffered,
          pending := some ⟨identifier, header, received.length + missing⟩,
          content := received.reverse ++ [octet] } ⟨identifier, header, received.length + missing⟩
      -- The assembly counts what is missing, the buffers what is there.
      unfold feed Buffers.settle
      dsimp only
      rw [← List.reverse_cons, List.length_reverse, List.length_cons]
      by_cases hlast : missing ≤ 1
      · rw [if_pos hlast, if_neg (by omega)]
        exact step_complete opened _ _ _ _ _
      · rw [if_neg hlast, if_pos (by omega)]
        have hcount : received.length + 1 + (missing - 1) = received.length + missing := by omega
        unfold Fed.step buffers
        dsimp only
        rw [List.length_cons, hcount]
  | marker =>
      change _ = Buffers.pushMarker
        { opened := opened.map Opened.buffered, markerBegun := true } octet
      unfold feed Buffers.pushMarker
      dsimp only
      split
      · rfl
      · cases opened with
        | nil => rfl
        | cons o outer => exact step_attach outer o.close []
  | header scan =>
      change _ =
        if scan.isFresh then
          Buffers.pushBetween limits { opened := opened.map Opened.buffered, header := scan } octet
        else
          Buffers.pushHeader limits { opened := opened.map Opened.buffered, header := scan } octet
      unfold feed Buffers.pushBetween
      dsimp only
      rw [isEmpty_buffered, List.length_map]
      split
      · next hfresh =>
        obtain rfl : scan = .start := h hfresh
        split
        · rfl
        · cases limits.checkDepth opened.length with
          | error failure => rfl
          | ok _ => exact step_feedHeader opened .start octet
      · exact step_feedHeader opened scan octet

theorem pushAll_of_feedAll {a : Assembly} (ha : a.Sound) {before : List Note} {octets : Octets}
    (h : (a.feedAll limits before octets).1.result = none) :
    a.buffers.pushAll limits octets = some (a.feedAll limits before octets).1.after.buffers := by
  induction octets generalizing a before with
  | nil => rfl
  | cons octet rest ih =>
      have htidy : (feed limits a octet).Tidy := feed_tidy a octet
      rw [feedAll] at h ⊢
      rw [Buffers.pushAll, ← step_feed ha]
      cases hresult : (feed limits a octet).result with
      | some result =>
          rw [hresult] at h
          cases h
      | none =>
          rw [hresult] at h
          dsimp only [Fed.step] at h ⊢
          rw [hresult]
          exact ih htidy.sound h

theorem buffers_isMidElement (a : Assembly) : a.buffers.isMidElement = a.isBusy := by
  obtain ⟨opened, phase⟩ := a
  unfold Buffers.isMidElement isBusy
  cases phase with
  | header scan =>
      dsimp only [buffers, HeaderScan.octets, HeaderScan.isFresh]
      rw [isEmpty_buffered, List.isEmpty_reverse, Option.isSome_none, Bool.or_false, Bool.or_false]
  | contents identifier header received missing =>
      dsimp only [buffers]
      rw [Option.isSome_some, Bool.or_true, Bool.or_false, Bool.or_true]
  | marker =>
      dsimp only [buffers]
      rw [Bool.or_true, Bool.or_true]

end Assembly

end BasicEncoding
