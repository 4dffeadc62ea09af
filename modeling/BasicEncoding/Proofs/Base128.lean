import BasicEncoding.Base128

/-! Chains read back. Tag numbers and subidentifiers are read by different machines with different
bounds, so a reader is taken as a pair of functions here: `next` goes on inside a chain and `stop`
goes on behind its last octet. Both are given the number and the octets met so far. -/
namespace BasicEncoding.Base128

variable {β : Type} {next stop : Nat → Octets → Octets → β} {bound : Nat}

/-- A reader that takes seven bits from each octet and has a bound to check before it does so. -/
def Reads (next stop : Nat → Octets → Octets → β) (bound : Nat) : Prop :=
  ∀ number seen octet rest, number < bound →
    next number seen (octet :: rest) =
      if octet < 128 then stop (number * 128 + octet.toNat % 128) (octet :: seen) rest
      else next (number * 128 + octet.toNat % 128) (octet :: seen) rest

theorem exists_group (v n : Nat) :
    ∃ octet, groups v (n + 1) = octet :: groups v n ∧ octet.toNat % 128 = v / 128 ^ n % 128 ∧
      (octet < 128 ↔ n = 0) := by
  refine ⟨_, rfl, ?_, ?_⟩
  · rw [UInt8.toNat_ofNat']
    split <;> omega
  · rw [UInt8.lt_iff_toNat_lt, UInt8.toNat_ofNat']
    change _ < 128 ↔ _
    split <;> omega

theorem group_push (v n : Nat) : v / 128 ^ (n + 1) * 128 + v / 128 ^ n % 128 = v / 128 ^ n := by
  rw [Nat.pow_succ, ← Nat.div_div_eq_div_mul]
  omega

theorem group_lt {v : Nat} (h : v < bound * 128) (n : Nat) : v / 128 ^ (n + 1) < bound := by
  have hpos : 0 < 128 ^ n := Nat.pow_pos (by decide)
  rw [Nat.pow_succ, Nat.mul_comm, ← Nat.div_div_eq_div_mul]
  have hdiv : v / 128 < bound := Nat.div_lt_of_lt_mul (by omega)
  exact Nat.lt_of_le_of_lt (Nat.div_le_self _ _) hdiv

theorem read_groups (hreads : Reads next stop bound) {v : Nat} (hv : v < bound * 128)
    (n : Nat) (seen rest : Octets) :
    next (v / 128 ^ (n + 1)) seen (groups v (n + 1) ++ rest) =
      stop v ((groups v (n + 1)).reverse ++ seen) rest := by
  induction n generalizing seen with
  | zero =>
      obtain ⟨octet, hgroups, hpayload, hlast⟩ := exists_group v 0
      have hvalue : v / 128 ^ (0 + 1) * 128 + octet.toNat % 128 = v := by
        rw [hpayload, group_push, Nat.pow_zero, Nat.div_one]
      rw [hgroups, List.cons_append, hreads _ _ _ _ (group_lt hv 0), if_pos (hlast.mpr rfl), hvalue]
      rfl
  | succ n ih =>
      obtain ⟨octet, hgroups, hpayload, hlast⟩ := exists_group v (n + 1)
      have hmore : ¬octet < 128 := fun h => Nat.succ_ne_zero n (hlast.mp h)
      rw [hgroups, List.cons_append, hreads _ _ _ _ (group_lt hv (n + 1)), if_neg hmore, hpayload,
        group_push, ih, List.reverse_cons, List.append_assoc]
      rfl

theorem lt_groupCount (v : Nat) : v < 128 ^ groupCount v := by
  have hlog : v < 2 ^ (v.log2 + 1) := Nat.lt_log2_self
  have hpow : (128 : Nat) ^ groupCount v = 2 ^ (7 * groupCount v) := by
    rw [Nat.pow_mul]
  have hle : 2 ^ (v.log2 + 1) ≤ 2 ^ (7 * groupCount v) := by
    apply Nat.pow_le_pow_right (by decide)
    unfold groupCount groupBits
    omega
  omega

/-- The number of a chain below the limit of a reader is read whole, with all octets of the chain. -/
theorem read_chain (hreads : Reads next stop bound) {v : Nat} (hv : v < bound * 128)
    (seen rest : Octets) :
    next 0 seen (chain v ++ rest) = stop v ((chain v).reverse ++ seen) rest := by
  have hzero : v / 128 ^ groupCount v = 0 := Nat.div_eq_of_lt (lt_groupCount v)
  have hread := read_groups hreads hv (v.log2 / groupBits) seen rest
  change next (v / 128 ^ groupCount v) _ _ = _ at hread
  rw [hzero] at hread
  exact hread

end BasicEncoding.Base128
