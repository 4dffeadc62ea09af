import BasicEncoding.Proofs.Element.Decoded

/-! Which values come back from their contents. Writing goes by the kind of a value and reading by
the tag; a value that comes back has the kind of its tag, and that is what the check of a primitive
asks for. Tags defined elsewhere take any value and give its contents. -/
namespace BasicEncoding

namespace Value

/-- What is read where `v` was written is the same value. -/
def Survives (identifier : Identifier) (v : Value) : Prop :=
  ∃ w, decode identifier v.encode = .ok w ∧ w.same v = true

variable {identifier : Identifier} {v w : Value}

/-- Reals are the same as numbers, all other values are equal. -/
theorem same_cases (h : w.same v = true) :
    (w = v ∧ ∀ x, v ≠ .real x) ∨ ∃ x y, w = .real x ∧ v = .real y ∧ x.sameNumber y = true := by
  unfold same at h
  split at h
  · exact .inr ⟨_, _, rfl, rfl, h⟩
  · next hreal =>
    obtain rfl := of_decide_eq_true h
    exact .inl ⟨rfl, fun x hx => hreal x x hx hx⟩

theorem kind_eq_of_same (h : w.same v = true) : w.kind = v.kind := by
  obtain ⟨rfl, -⟩ | ⟨x, y, rfl, rfl, -⟩ := same_cases h <;> rfl

theorem readable_of_same (h : w.same v = true) (hw : ∀ x, w = .real x → x.isSubnormal = false) :
    v.Readable := by
  rintro y rfl
  obtain ⟨-, hreal⟩ | ⟨x, y, rfl, ⟨⟩, hsame⟩ := same_cases h
  · exact absurd rfl (hreal y)
  · simp only [Binary64.sameNumber, Bool.and_eq_true, Bool.or_eq_true, Bool.not_eq_true',
      beq_iff_eq] at hsame
    obtain ⟨⟨-, hnan⟩, rfl | ⟨-, hzero⟩⟩ := hsame
    · exact ⟨hnan, hw x rfl⟩
    · have hfields : y.field = 0 ∧ y.fraction = 0 := of_decide_eq_true hzero
      exact ⟨hnan, decide_eq_false fun hsubnormal => hsubnormal.2 hfields.2⟩

theorem readable_of_survives (h : Survives identifier v) : v.Readable := by
  obtain ⟨w, hread, hsame⟩ := h
  exact readable_of_same hsame (decode_not_subnormal hread)

theorem survives_universal_iff (h : v.Readable) (hclass : identifier.tagClass = .universal) :
    Survives identifier v ↔ v.kind = Universal.kind identifier.number := by
  constructor
  · rintro ⟨w, hread, hsame⟩
    rw [← kind_eq_of_same hsame]
    exact decode_universal hread hclass
  · intro hkind
    have hread : decode identifier v.encode = .ok v.settled :=
      decode_encode h (fun _ => hkind) (fun hother => absurd hclass hother)
    exact ⟨v.settled, hread, settled_same h⟩

end Value

namespace Element

theorem primitive_universal (tag : UInt32) (v : Value) (label : String) :
    primitive .universal tag v label =
      if v.kind = Universal.kind tag then .ok (bare (.universal false tag) v label)
      else .error (.typeMismatch (Universal.kind tag) v.kind) := by
  unfold primitive Element.new check
  by_cases hkind : v.kind = Universal.kind tag
  · rw [if_neg Bool.false_ne_true, if_neg fun h => h.2 hkind, if_pos hkind]
    rfl
  · rw [if_neg Bool.false_ne_true, if_pos ⟨rfl, hkind⟩, if_neg hkind]
    rfl

theorem primitive_elsewhere {tagClass : TagClass} (hclass : tagClass ≠ .universal) (tag : UInt32)
    (v : Value) (label : String) :
    primitive tagClass tag v label = .ok (bare ⟨tagClass, false, tag⟩ v label) := by
  unfold primitive Element.new check
  rw [if_neg Bool.false_ne_true, if_neg fun h => hclass h.1]
  rfl

/-- A universal primitive is made of a value exactly where the value comes back from its contents,
for every value but NaNs and subnormal numbers; these do not come back under any tag. A refusal
names the kind that the tag carries. A tag of another class is given any value, and its contents are
read as they are. -/
theorem new_accepts_survivors (tag : UInt32) (v : Value) (label : String) :
    (v.Readable → ((∃ e, Element.new ⟨.universal, false, tag⟩ v label = .ok e) ↔
      v.Survives ⟨.universal, false, tag⟩)) ∧
    (¬v.Readable → ¬v.Survives ⟨.universal, false, tag⟩) ∧
    (∀ failure, Element.new ⟨.universal, false, tag⟩ v label = .error failure →
      failure = .typeMismatch (Universal.kind tag) v.kind) ∧
    ∀ tagClass, tagClass ≠ .universal →
      (∃ e, Element.new ⟨tagClass, false, tag⟩ v label = .ok e) ∧
      Value.decode ⟨tagClass, false, tag⟩ v.encode = .ok (.octets v.encode) := by
  have hnew := primitive_universal tag v label
  rw [primitive] at hnew
  refine ⟨?_, ?_, ?_, ?_⟩
  · intro hreadable
    rw [Value.survives_universal_iff hreadable rfl, hnew]
    by_cases hkind : v.kind = Universal.kind tag
    · rw [if_pos hkind]
      exact iff_of_true ⟨_, rfl⟩ hkind
    · rw [if_neg hkind]
      exact iff_of_false nofun hkind
  · intro hunreadable hsurvives
    exact hunreadable (Value.readable_of_survives hsurvives)
  · intro failure hrefused
    rw [hnew] at hrefused
    split at hrefused
    · cases hrefused
    · exact (Except.error.inj hrefused).symm
  · intro tagClass hclass
    exact ⟨⟨_, primitive_elsewhere hclass tag v label⟩, if_neg hclass⟩

/-- An octet that spells a number is refused under the tag of numbers and would not come back, and a
zero comes back whatever its sign. A NaN is accepted as a real without coming back; under another
class its octet does. -/
theorem octet_refused_as_integer :
    (Element.new ⟨.universal, false, Universal.integer⟩ (.octets [5]) "" =
        .error (.typeMismatch .integer .octets) ∧
      ¬Value.Survives ⟨.universal, false, Universal.integer⟩ (.octets [5])) ∧
    (Element.new ⟨.universal, false, Universal.real⟩ (.real (.ofFields true 0 0)) "" =
        .ok (real (.ofFields true 0 0) "") ∧
      Value.Survives ⟨.universal, false, Universal.real⟩ (.real (.ofFields true 0 0))) ∧
    (Element.new ⟨.universal, false, Universal.real⟩ (.real .nan) "" = .ok (real .nan "") ∧
      ¬Value.Survives ⟨.universal, false, Universal.real⟩ (.real .nan)) ∧
    (∃ e, Element.new ⟨.application, false, Universal.real⟩ (.real .nan) "" = .ok e) ∧
    Value.decode ⟨.application, false, Universal.real⟩ (Value.real .nan).encode =
      .ok (.octets [0x42]) := by
  obtain ⟨hinteger, -⟩ := new_accepts_survivors Universal.integer (.octets [5]) ""
  obtain ⟨hreal, -⟩ := new_accepts_survivors Universal.real (.real (.ofFields true 0 0)) ""
  obtain ⟨-, hnan, -, helsewhere⟩ := new_accepts_survivors Universal.real (.real .nan) ""
  have hzero : (Value.real (.ofFields true 0 0)).Readable := by
    rintro _ ⟨⟩
    decide
  have hunreadable : ¬(Value.real .nan).Readable := fun hreadable =>
    absurd (hreadable .nan rfl).1 (by decide)
  refine ⟨⟨rfl, mt (hinteger nofun).mpr nofun⟩, ⟨rfl, (hreal hzero).mp ⟨_, rfl⟩⟩,
    ⟨rfl, hnan hunreadable⟩, helsewhere .application nofun⟩

end Element

end BasicEncoding
