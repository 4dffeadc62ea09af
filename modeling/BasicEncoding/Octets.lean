import BasicEncoding.Powers

/-! Octet strings and the numbers they spell. A number is cut into octets of two's complement, most
significant first; any number of low octets may be asked for, so nothing here chooses a width. As
text, octets and numbers are hexadecimal digits. -/
namespace BasicEncoding

abbrev Octets := List UInt8

/-- Octet `n` of the two's complement of `v`, counted from the least significant. -/
def octetAt (v : Int) (n : Nat) : UInt8 :=
  UInt8.ofNat (v / 256 ^ n % 256).toNat

/-- The `n` least significant octets of `v`, most significant first. -/
def lowOctets (v : Int) : Nat → Octets
  | 0 => []
  | n + 1 => octetAt v n :: lowOctets v n

/-- The number that octets spell without a sign, most significant first. -/
def unsignedValue (octets : Octets) : Nat :=
  octets.foldl (fun value octet => value * 256 + octet.toNat) 0

/-- The number that octets spell in two's complement; no octets spell zero. -/
def signedValue : Octets → Int
  | [] => 0
  | first :: rest =>
    (unsignedValue (first :: rest) : Int) -
      if 128 ≤ first.toNat then 256 ^ (rest.length + 1) else 0

@[simp] theorem length_lowOctets (v : Int) (n : Nat) : (lowOctets v n).length = n := by
  induction n with
  | zero => rfl
  | succ n ih => simp [lowOctets, ih]

theorem foldl_unsigned (octets : Octets) (value : Nat) :
    octets.foldl (fun value octet => value * 256 + octet.toNat) value =
      value * 256 ^ octets.length + unsignedValue octets := by
  induction octets generalizing value with
  | nil => simp [unsignedValue]
  | cons octet rest ih =>
      simp only [unsignedValue, List.foldl_cons, List.length_cons]
      rw [ih, ih (0 * 256 + octet.toNat), Nat.pow_succ, Nat.zero_mul, Nat.zero_add, Nat.add_mul,
        Nat.mul_assoc, Nat.mul_comm 256]
      omega

@[simp] theorem unsignedValue_nil : unsignedValue [] = 0 := rfl

theorem unsignedValue_cons (octet : UInt8) (rest : Octets) :
    unsignedValue (octet :: rest) = octet.toNat * 256 ^ rest.length + unsignedValue rest := by
  have h := foldl_unsigned rest octet.toNat
  simpa [unsignedValue] using h

theorem unsignedValue_lt (octets : Octets) : unsignedValue octets < 256 ^ octets.length := by
  induction octets with
  | nil => simp
  | cons octet rest ih =>
      rw [unsignedValue_cons, List.length_cons, Nat.pow_succ]
      have h : octet.toNat < 256 := octet.toNat_lt
      have hle : octet.toNat * 256 ^ rest.length ≤ 255 * 256 ^ rest.length :=
        Nat.mul_le_mul_right _ (by omega)
      omega

theorem toNat_octetAt (v : Int) (n : Nat) : ((octetAt v n).toNat : Int) = v / 256 ^ n % 256 := by
  have hlow : 0 ≤ v / 256 ^ n % 256 := Int.emod_nonneg _ (by decide)
  have hhigh : v / 256 ^ n % 256 < 256 := Int.emod_lt_of_pos _ (by decide)
  have hsmall : (v / 256 ^ n % 256).toNat < 256 := by omega
  rw [octetAt, UInt8.toNat_ofNat', Nat.mod_eq_of_lt hsmall]
  exact Int.toNat_of_nonneg hlow

theorem unsignedValue_lowOctets (v : Int) (n : Nat) :
    (unsignedValue (lowOctets v n) : Int) = v % 256 ^ n := by
  induction n with
  | zero => simp [lowOctets]
  | succ n ih =>
      have hpos : (0 : Int) ≤ 256 ^ n := Int.le_of_lt (Int.pow_pos (by decide))
      rw [lowOctets, unsignedValue_cons, length_lowOctets, Int.natCast_add, Int.natCast_mul, ih,
        toNat_octetAt, Int.natCast_pow, Int.pow_succ, Int.emod_def v (256 ^ n * 256),
        ← Int.ediv_ediv_of_nonneg hpos, Int.emod_def v (256 ^ n), Int.emod_def (v / 256 ^ n) 256]
      grind

theorem unsignedValue_append (a b : Octets) :
    unsignedValue (a ++ b) = unsignedValue a * 256 ^ b.length + unsignedValue b := by
  rw [unsignedValue, List.foldl_append]
  exact foldl_unsigned b _

end BasicEncoding

namespace BasicEncoding.Text.Hex

def octet (o : UInt8) : String :=
  let digit (n : Nat) : Char := (Nat.digitChar n).toUpper
  String.ofList [digit (o.toNat / 16), digit (o.toNat % 16)]

def octets (os : List UInt8) : String :=
  String.join (os.map octet)

/-- A number in as few lower-case digits as it needs. -/
def number (n : Nat) : String :=
  String.ofList (Nat.toDigits 16 n)

end BasicEncoding.Text.Hex
