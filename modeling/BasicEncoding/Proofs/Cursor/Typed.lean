import BasicEncoding.Proofs.Element.RoundTrip
import BasicEncoding.Writer

/-! Typed operations of writers and cursors, one against the other. Whatever is written, element by
element, a cursor comes to the same elements one after another. Where the next element is asked for
by its type its value is given, and where it is asked for by another type the request is refused;
the cursor moves past this one element in either case, so a wrong request does not mislead those
behind it. -/
namespace BasicEncoding

inductive TypedKind where
  | boolean
  | integer
  | octetString
  | oid
  | real
  deriving DecidableEq

inductive TypedValue where
  | boolean (value : Bool)
  | integer (value : Int64)
  | octetString (value : Octets)
  | oid (value : ObjectIdentifier)
  | real (value : Binary64)
  deriving DecidableEq

def TypedKind.tag : TypedKind → UInt32
  | .boolean => Universal.boolean
  | .integer => Universal.integer
  | .octetString => Universal.octetString
  | .oid => Universal.objectIdentifier
  | .real => Universal.real

theorem TypedKind.tag_inj {kind other : TypedKind} (h : kind.tag = other.tag) : kind = other := by
  revert h
  cases kind <;> cases other <;> decide

namespace TypedValue

def kind : TypedValue → TypedKind
  | .boolean _ => .boolean
  | .integer _ => .integer
  | .octetString _ => .octetString
  | .oid _ => .oid
  | .real _ => .real

def value : TypedValue → Value
  | .boolean b => .boolean b
  | .integer n => .integer n
  | .octetString os => .octets os
  | .oid o => .oid o
  | .real x => .real x

def element (label : String) : TypedValue → Element
  | .boolean b => .boolean b label
  | .integer n => .integer n label
  | .octetString os => .octetString os label
  | .oid o => .oid o label
  | .real x => .real x label

def write (w : Writer) : TypedValue → Writer
  | .boolean b => w.boolean b
  | .integer n => w.integer n
  | .octetString os => w.octetString os
  | .oid o => w.oid o
  | .real x => w.real x

/-- The value that is given back: every zero is positive. -/
def settled : TypedValue → TypedValue
  | .real x => .real (if x.isZero then .zero else x)
  | v => v

def octets (v : TypedValue) : Octets :=
  (v.element "").encode

variable {v : TypedValue} {label : String}

@[simp] theorem kind_settled (v : TypedValue) : v.settled.kind = v.kind := by
  cases v <;> rfl

@[simp] theorem value_settled (v : TypedValue) : v.settled.value = v.value.settled := by
  cases v <;> rfl

theorem element_eq (v : TypedValue) (label : String) :
    v.element label = .bare (.universal false v.kind.tag) v.value label := by
  cases v <;> rfl

theorem encode_element (v : TypedValue) (label : String) :
    (v.element label).encode = encodeDefinite (.universal false v.kind.tag) v.value.encode := by
  rw [element_eq]
  rfl

theorem write_eq_element (w : Writer) (v : TypedValue) (label : String) :
    v.write w = w.element (v.element label) := by
  rw [Writer.element, encode_element]
  cases v <;> rfl

end TypedValue

namespace Writer

def writeAll (w : Writer) (values : List TypedValue) : Writer :=
  values.foldl TypedValue.write w

theorem octets_writeAll (w : Writer) (values : List TypedValue) :
    (w.writeAll values).octets = w.octets ++ values.flatMap TypedValue.octets := by
  induction values generalizing w with
  | nil => exact (List.append_nil _).symm
  | cons v values ih =>
      change ((v.write w).writeAll values).octets = _
      rw [ih, TypedValue.write_eq_element w v "", List.flatMap_cons, ← List.append_assoc]
      rfl

end Writer

namespace Cursor

def take (c : Cursor) : TypedKind → Attempt Cursor TypedValue
  | .boolean => c.boolean.check fun b => .ok (.boolean b)
  | .integer => c.integer.check fun n => .ok (.integer n)
  | .octetString => c.octetString.check fun os => .ok (.octetString os)
  | .oid => c.oid.check fun o => .ok (.oid o)
  | .real => c.real.check fun x => .ok (.real x)

/-- Where one request after another leaves a cursor. -/
def takeAll (c : Cursor) (requests : List TypedKind) : Cursor :=
  requests.foldl (fun c kind => (c.take kind).after) c

variable {c : Cursor} {e : Element} {v : TypedValue} {kind : TypedKind} {failure : Failure}
  {rest : Octets}

theorem after_take (c : Cursor) (kind : TypedKind) : (c.take kind).after = c.next.after := by
  cases kind <;> rfl

theorem result_expect (h : c.next.result = .ok e) (tag : UInt32) :
    (c.expect tag).result = if e.identifier = .universal false tag then .ok e
      else .error (.invalidData (.otherTag tag e.identifier)) := by
  change (c.next.result >>= fun e => if e.identifier = .universal false tag then Except.ok e
    else .error (.invalidData (.otherTag tag e.identifier))) = _
  rw [h]
  rfl

theorem take_of_refused (h : (c.expect kind.tag).result = .error failure) :
    (c.take kind).result = .error failure := by
  cases kind
  all_goals
    rw [TypedKind.tag] at h
    change ((c.expect _).result >>= _) >>= _ = _
    rw [h]
    rfl

theorem take_of_expected (h : (c.expect v.kind.tag).result = .ok e) (hvalue : e.value = v.value) :
    (c.take v.kind).result = .ok v := by
  obtain ⟨identifier, value, children, framing, raw, label⟩ := e
  cases hvalue
  cases v
  all_goals
    rw [TypedValue.kind, TypedKind.tag] at h
    change ((c.expect _).result >>= _) >>= _ = _
    rw [h]
    rfl

/-- An element written for a value is the next one, whatever was written behind it. -/
theorem next_of_written (hreadable : v.value.Readable)
    (hlength : v.value.encode.length ≤ c.limits.maxContentLength.toNat)
    (hrest : c.rest = v.octets ++ rest) :
    c.next.result = .ok (v.element "").received ∧ c.next.after = { c with rest } := by
  have hcheck : Element.check (.universal false v.kind.tag) v.value = .ok () := by
    cases v <;> rfl
  have hreturns : Element.Returns c.limits 0 (v.element "") := by
    rw [TypedValue.element_eq]
    exact ⟨⟨Element.bare_formed hcheck "", fun _ helsewhere => absurd rfl helsewhere, hreadable,
      Nat.zero_le _, fun _ => hlength⟩, nofun⟩
  have hbelow : ∀ child ∈ (v.element "").children,
      child.AtNodes (Element.Returns c.limits) (0 + 1) := by
    rw [TypedValue.element_eq]
    nofun
  apply next_of_done
  rw [hrest]
  exact Element.readBack_of_atNodes (.node hreturns hbelow) rest

theorem take_of_written (hreadable : v.value.Readable)
    (hlength : v.value.encode.length ≤ c.limits.maxContentLength.toNat)
    (hrest : c.rest = v.octets ++ rest) (kind : TypedKind) :
    (c.take kind).result = (if kind = v.kind then .ok v.settled
      else .error (.invalidData (.otherTag kind.tag (.universal false v.kind.tag)))) ∧
    (c.take kind).after = { c with rest } := by
  obtain ⟨hnext, hafter⟩ := next_of_written hreadable hlength hrest
  have hidentifier : (v.element "").received.identifier = .universal false v.kind.tag := by
    rw [Element.received_eq, TypedValue.element_eq]
    rfl
  have hvalue : (v.element "").received.value = v.settled.value := by
    rw [Element.received_eq, TypedValue.element_eq, TypedValue.value_settled]
    rfl
  have hexpect := result_expect hnext kind.tag
  rw [hidentifier] at hexpect
  refine ⟨?_, (after_take c kind).trans hafter⟩
  split
  · next hkind =>
    subst hkind
    rw [if_pos rfl, ← TypedValue.kind_settled] at hexpect
    rw [← TypedValue.kind_settled]
    exact take_of_expected hexpect hvalue
  · next hkind =>
    have htag : ¬Identifier.universal false v.kind.tag = .universal false kind.tag := by
      intro hsame
      injection hsame with _ _ htag
      exact hkind (TypedKind.tag_inj htag.symm)
    rw [if_neg htag] at hexpect
    exact take_of_refused hexpect

/-- As many requests as there are elements, of whatever types, take all of them. -/
theorem takeAll_written {values : List TypedValue} {requests : List TypedKind}
    (hcount : requests.length = values.length) (hreadable : ∀ v ∈ values, v.value.Readable)
    (hlength : ∀ v ∈ values, v.value.encode.length ≤ c.limits.maxContentLength.toNat)
    (hrest : c.rest = values.flatMap TypedValue.octets ++ rest) :
    c.takeAll requests = { c with rest } := by
  induction values generalizing c requests with
  | nil =>
      rw [List.eq_nil_of_length_eq_zero hcount]
      rw [List.flatMap_nil, List.nil_append] at hrest
      rw [← hrest]
      rfl
  | cons v values ih =>
      obtain ⟨kind, requests, rfl⟩ := List.exists_cons_of_length_eq_add_one hcount
      rw [List.flatMap_cons, List.append_assoc] at hrest
      obtain ⟨-, hafter⟩ := take_of_written (hreadable v List.mem_cons_self)
        (hlength v List.mem_cons_self) hrest kind
      change (c.take kind).after.takeAll requests = _
      rw [hafter]
      exact ih (Nat.succ.inj hcount) (fun w hw => hreadable w (List.mem_cons_of_mem v hw))
        (fun w hw => hlength w (List.mem_cons_of_mem v hw)) rfl

/-- A cursor that has come to `v` behind the elements of `earlier`, and what becomes of a request
there. -/
structure InStep (written : Octets) (earlier : List TypedValue) (v : TypedValue) (c : Cursor)
    (kind : TypedKind) : Prop where
  more : c.hasRemaining = true
  position_eq : c.position = (Writer.empty.writeAll earlier).octets.length
  result_eq : (c.take kind).result = if kind = v.kind then .ok v.settled
    else .error (.invalidData (.otherTag kind.tag (.universal false v.kind.tag)))
  advances : (c.take kind).after.position = c.position + (v.element "").encode.length
  whole : (c.take kind).after.position + (c.take kind).after.remaining = written.length

theorem inStep_of_written {written : Octets} {earlier : List TypedValue}
    (hwritten : written = (Writer.empty.writeAll earlier).octets ++ (v.octets ++ rest))
    (htotal : c.total = written.length) (hrest : c.rest = v.octets ++ rest)
    (hreadable : v.value.Readable)
    (hlength : v.value.encode.length ≤ c.limits.maxContentLength.toNat) (kind : TypedKind) :
    InStep written earlier v c kind := by
  obtain ⟨hresult, hafter⟩ := take_of_written hreadable hlength hrest kind
  obtain ⟨octet, tail, hcons, -⟩ := Element.exists_encode_cons (v.element "")
  have hcount : written.length = (Writer.empty.writeAll earlier).octets.length +
      ((v.element "").encode.length + rest.length) := by
    rw [hwritten, List.length_append, List.length_append]
    rfl
  have hremaining : c.remaining = (v.element "").encode.length + rest.length := by
    rw [remaining, hrest, List.length_append]
    rfl
  have hbehind : (c.take kind).after.remaining = rest.length := by rw [hafter, remaining]
  have hposition : (c.take kind).after.position = c.total - rest.length := by
    rw [position, hbehind, hafter]
  refine ⟨?_, ?_, hresult, ?_, ?_⟩
  · rw [hasRemaining, hrest, TypedValue.octets, hcons]
    rfl
  · rw [position, htotal, hremaining]
    omega
  · rw [hposition, position, htotal, hremaining]
    omega
  · rw [hposition, hbehind, htotal]
    omega

/-- Every typed operation of a writer appends the element of its value. A cursor over all that was
written is asked for one element after another: each request of the right type gives the value that
was written, each of another type is refused, both move past one element, and after as many requests
as there are values nothing remains. -/
theorem typed_operations_in_step (limits : Limits) (values : List TypedValue)
    (hreadable : ∀ v ∈ values, v.value.Readable)
    (hlength : ∀ v ∈ values, v.value.encode.length ≤ limits.maxContentLength.toNat) :
    (∀ (w : Writer) (v : TypedValue) (label : String), v.write w = w.element (v.element label)) ∧
    (∀ earlier v later, values = earlier ++ v :: later →
      ∀ requests : List TypedKind, requests.length = earlier.length → ∀ kind,
        InStep (Writer.empty.writeAll values).octets earlier v
          ((start limits (Writer.empty.writeAll values).octets).takeAll requests) kind) ∧
    ∀ requests : List TypedKind, requests.length = values.length →
      ((start limits (Writer.empty.writeAll values).octets).takeAll requests).hasRemaining =
        false := by
  refine ⟨TypedValue.write_eq_element, ?_, ?_⟩
  · rintro earlier v later rfl requests hcount kind
    have hv : v ∈ earlier ++ v :: later := List.mem_append_right _ List.mem_cons_self
    have hwritten : (Writer.empty.writeAll (earlier ++ v :: later)).octets =
        (Writer.empty.writeAll earlier).octets ++
          (v.octets ++ later.flatMap TypedValue.octets) := by
      rw [Writer.octets_writeAll, Writer.octets_writeAll, List.flatMap_append, List.flatMap_cons]
      rfl
    have hrest : (start limits (Writer.empty.writeAll (earlier ++ v :: later)).octets).rest =
        earlier.flatMap TypedValue.octets ++ (v.octets ++ later.flatMap TypedValue.octets) := by
      change (Writer.empty.writeAll (earlier ++ v :: later)).octets = _
      rw [hwritten, Writer.octets_writeAll]
      rfl
    rw [takeAll_written hcount (fun w hw => hreadable w (List.mem_append_left _ hw))
      (fun w hw => hlength w (List.mem_append_left _ hw)) hrest]
    exact inStep_of_written hwritten rfl rfl (hreadable v hv) (hlength v hv) kind
  · intro requests hcount
    have hrest : (start limits (Writer.empty.writeAll values).octets).rest =
        values.flatMap TypedValue.octets ++ [] := by
      rw [List.append_nil]
      exact Writer.octets_writeAll .empty values
    rw [takeAll_written hcount hreadable hlength hrest]
    rfl

/-- A number, a zero and a truth value. The zero is asked for by a wrong type, and as a real. -/
theorem zero_asked_for_as_oid :
    let written := (Writer.empty.writeAll
      [.integer 12345, .real (.ofFields true 0 0), .boolean true]).octets
    let c := (start {} written).takeAll [.integer]
    (c.take .oid).result = .error (.invalidData (.otherTag 6 (.universal false 9))) ∧
      (c.take .real).result = .ok (.real .zero) ∧ (c.take .oid).after.position = 7 ∧
      ((start {} written).takeAll [.integer, .oid, .boolean]).hasRemaining = false := by
  intro written c
  have hreadable : ∀ v ∈ [.integer 12345, .real (.ofFields true 0 0), .boolean true],
      (TypedValue.value v).Readable := by
    intro v hv x hx
    simp only [List.mem_cons, List.not_mem_nil, or_false] at hv
    rcases hv with rfl | rfl | rfl <;> cases hx
    decide
  obtain ⟨-, hsteps, hend⟩ := typed_operations_in_step {}
    [.integer 12345, .real (.ofFields true 0 0), .boolean true] hreadable (by decide)
  have hwrong := hsteps [.integer 12345] _ [.boolean true] rfl [.integer] rfl .oid
  have hright := hsteps [.integer 12345] _ [.boolean true] rfl [.integer] rfl .real
  refine ⟨hwrong.result_eq, hright.result_eq, ?_, hend [.integer, .oid, .boolean] rfl⟩
  rw [hwrong.advances, hwrong.position_eq]
  decide

end Cursor

end BasicEncoding
