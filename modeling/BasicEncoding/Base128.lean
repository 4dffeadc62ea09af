import BasicEncoding.Octets

/-! Base-128 chains: seven bits an octet, most significant first, bit 8 set on every octet but the
last. Tag numbers above 30 and the subidentifiers of object identifiers are written so. -/
namespace BasicEncoding.Base128

def groupBits : Nat := 7

/-- The least number of groups that hold `v`; zero still takes one. -/
def groupCount (v : Nat) : Nat :=
  v.log2 / groupBits + 1

/-- The `n` low groups of `v` as a chain. -/
def groups (v : Nat) : Nat → Octets
  | 0 => []
  | n + 1 => UInt8.ofNat (v / 128 ^ n % 128 + if n = 0 then 0 else 128) :: groups v n

/-- The shortest chain for `v`. -/
def chain (v : Nat) : Octets :=
  groups v (groupCount v)

@[simp] theorem length_groups (v n : Nat) : (groups v n).length = n := by
  induction n with
  | zero => rfl
  | succ n ih => simp [groups, ih]

theorem length_chain (v : Nat) : (chain v).length = groupCount v := by
  simp [chain]

theorem chain_ne_nil (v : Nat) : chain v ≠ [] := by
  intro h
  have hlen := length_chain v
  rw [h] at hlen
  exact Nat.succ_ne_zero _ hlen.symm

end BasicEncoding.Base128
