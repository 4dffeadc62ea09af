import BasicEncoding.Proofs.ObjectIdentifier.RoundTrip
import BasicEncoding.Proofs.Real.RoundTrip
import BasicEncoding.Value.Content

/-! Values read back from their contents. Only a zero changes: its sign is not written. -/
namespace BasicEncoding

namespace Boolean

theorem decode_encode (b : Bool) : decode (encode b) = .ok b := by
  cases b <;> rfl

end Boolean

namespace Value

/-- The value that reading gives where `v` was written. -/
def settled : Value → Value
  | .real x => .real (if x.isZero then .zero else x)
  | v => v

def Readable (v : Value) : Prop :=
  ∀ x, v = .real x → x.isNaN = false ∧ x.isSubnormal = false

theorem settled_same {v : Value} (h : v.Readable) : v.settled.same v = true := by
  cases v with
  | real x =>
      obtain ⟨hnan, -⟩ := h x rfl
      by_cases hzero : x.isZero = true
      · have hself : Binary64.zero.sameNumber x = true := by
          have hzeros : Binary64.zero.isZero = true := rfl
          rw [Binary64.sameNumber, hnan, hzero, hzeros, Bool.and_self, Bool.or_true]
          rfl
        simpa only [settled, if_pos hzero, same] using hself
      · have hself : x.sameNumber x = true := by
          rw [Binary64.sameNumber, hnan, beq_self_eq_true]
          rfl
        simpa only [settled, if_neg hzero, same] using hself
  | _ => simp only [settled, same, decide_true]

theorem real_decode_encode {x : Binary64} (h : (Value.real x).Readable) :
    Real.decode (Real.encode x) = .ok (if x.isZero then .zero else x) := by
  obtain ⟨hnan, hsubnormal⟩ := h x rfl
  by_cases hzero : x.isZero = true
  · rw [if_pos hzero]
    exact Real.decode_encode_zero hzero
  · rw [if_neg hzero]
    by_cases hinf : x.isInfinite = true
    · exact Real.decode_encode_infinite hinf
    · simp only [Binary64.isZero, Binary64.isInfinite, Binary64.isNaN, Binary64.isSubnormal,
        decide_eq_true_eq, decide_eq_false_iff_not] at hnan hsubnormal hzero hinf
      exact Real.decode_encode_normal (by omega) (by omega)

theorem ofContent_encode (tag : UInt32) {v : Value} (h : v.Readable) :
    ofContent tag v.encode v.kind = .ok v.settled := by
  cases v with
  | nothing => rfl
  | boolean b =>
      change (Boolean.decode (Boolean.encode b)).map _ = _
      rw [Boolean.decode_encode]
      rfl
  | integer n =>
      change (Integer.decode (Integer.encode n)).map _ = _
      rw [Integer.decode_encode]
      rfl
  | octets os => rfl
  | real x =>
      change (Real.decode (Real.encode x)).map _ = _
      rw [real_decode_encode h]
      rfl
  | oid o =>
      change (ObjectIdentifier.decode o.encode).map _ = _
      rw [ObjectIdentifier.decode_encode]
      rfl

theorem decode_encode {identifier : Identifier} {v : Value} (h : v.Readable)
    (huniversal : identifier.tagClass = .universal → v.kind = Universal.kind identifier.number)
    (hother : identifier.tagClass ≠ .universal → v.kind = .octets) :
    decode identifier v.encode = .ok v.settled := by
  unfold decode
  split
  · next hclass =>
    rw [← huniversal hclass]
    exact ofContent_encode identifier.number h
  · next hclass =>
    have hkind := hother hclass
    cases v with
    | octets os => rfl
    | _ => cases hkind

end Value

end BasicEncoding
