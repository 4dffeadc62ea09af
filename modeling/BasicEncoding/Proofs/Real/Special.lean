import BasicEncoding.Proofs.Real.Exact

/-! Contents that do not have the binary form. Four first octets stand for a value each, and every
other one is refused. The octets behind a special octet are neither read nor refused: they are gone
when the value is written again, so contents are kept as they came only where the special octet is
all there is. -/
namespace BasicEncoding.Real

/-- The values that are written as one octet, and this octet. -/
inductive Special : UInt8 → Binary64 → Prop
  | plusInfinity : Special 0x40 (.infinity false)
  | minusInfinity : Special 0x41 (.infinity true)
  | notANumber : Special 0x42 .nan
  | zero : Special 0x43 .zero

def SingleOctet (contents : Octets) : Prop :=
  ∃ first x, Special first x ∧ contents = [first]

variable {first : UInt8} {rest : Octets} {x : Binary64}

theorem encode_of_special (h : Special first x) : encode x = [first] := by
  cases h <;> decide

theorem singleOctet_iff : SingleOctet (first :: rest) ↔ (∃ x, Special first x) ∧ rest = [] := by
  constructor
  · rintro ⟨special, x, hspecial, hcontents⟩
    obtain ⟨rfl, hrest⟩ := List.cons.inj hcontents
    exact ⟨⟨x, hspecial⟩, hrest⟩
  · rintro ⟨⟨x, hspecial⟩, rfl⟩
    exact ⟨first, x, hspecial, rfl⟩

theorem decode_of_special (h : Special first x) (rest : Octets) :
    decode (first :: rest) = .ok x := by
  cases h <;> rfl

theorem decode_of_not_special (h : first < 128) (hnot : ¬∃ x, Special first x) (rest : Octets) :
    decode (first :: rest) = .error (.realNotBinary first) := by
  have hplus : first ≠ plusInfinity := by
    rintro rfl
    exact hnot ⟨_, .plusInfinity⟩
  have hminus : first ≠ minusInfinity := by
    rintro rfl
    exact hnot ⟨_, .minusInfinity⟩
  have hnan : first ≠ notANumber := by
    rintro rfl
    exact hnot ⟨_, .notANumber⟩
  have hzero : first ≠ zeroOctet := by
    rintro rfl
    exact hnot ⟨_, .zero⟩
  rw [decode, if_neg hplus, if_neg hminus, if_neg hnan, if_neg hzero, if_pos h]

theorem decode_eq_ok_iff_special (h : first < 128) :
    decode (first :: rest) = .ok x ↔ Special first x := by
  constructor
  · intro hread
    by_cases hspecial : ∃ y, Special first y
    · obtain ⟨y, hy⟩ := hspecial
      rw [decode_of_special hy] at hread
      exact Except.ok.inj hread ▸ hy
    · rw [decode_of_not_special h hspecial] at hread
      cases hread
  · intro hspecial
    exact decode_of_special hspecial rest

/-- The first octet alone decides on contents that do not have the binary form: it has one value or
is refused. What is read is written as this octet, without those behind it, and therefore contents
are read where they are a single special octet, and besides exactly where a special octet has more
octets behind it. No octets are zero, and from 128 on the first octet begins the binary form. -/
theorem decode_special_exact (first : UInt8) (rest : Octets) :
    decode [] = .ok .zero ∧
    (128 ≤ first → decode (first :: rest) = decodeBinary first rest) ∧
    (first < 128 →
      (∀ x, decode (first :: rest) = .ok x ↔ Special first x) ∧
      ((¬∃ x, Special first x) → decode (first :: rest) = .error (.realNotBinary first)) ∧
      (∀ x, decode (first :: rest) = .ok x → encode x = [first]) ∧
      (((∃ x, decode (first :: rest) = .ok x) ↔ SingleOctet (first :: rest)) ↔
        ¬((∃ x, Special first x) ∧ rest ≠ []))) := by
  refine ⟨rfl, decode_eq_decodeBinary, ?_⟩
  intro h
  refine ⟨fun _ => decode_eq_ok_iff_special h, ?_, ?_, ?_⟩
  · intro hnot
    exact decode_of_not_special h hnot rest
  · intro x hread
    exact encode_of_special ((decode_eq_ok_iff_special h).mp hread)
  · simp only [decode_eq_ok_iff_special h, singleOctet_iff]
    tauto

/-- An octet behind plus infinity is lost. -/
theorem decode_infinity_and_zero :
    decode [0x40, 0x00] = .ok (.infinity false) ∧ encode (.infinity false) = [0x40] ∧
      ¬SingleOctet [0x40, 0x00] := by
  obtain ⟨-, -, hexact⟩ := decode_special_exact 0x40 [0x00]
  obtain ⟨hread, -, hagain, hlaw⟩ := hexact (by decide)
  have hspecial : Special 0x40 (.infinity false) := .plusInfinity
  have hvalue := (hread _).mpr hspecial
  refine ⟨hvalue, hagain _ hvalue, ?_⟩
  intro hsingle
  have hnone := hlaw.mp (iff_of_true ⟨_, hvalue⟩ hsingle)
  exact hnone ⟨⟨_, hspecial⟩, List.cons_ne_nil _ _⟩

end BasicEncoding.Real
