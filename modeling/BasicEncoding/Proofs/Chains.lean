import BasicEncoding.Proofs.Spelling
import Mathlib.Data.List.SplitBy

/-! Octets cut into chains. The cut is made behind every octet with bit 8 clear and does not look at
numbers; a run without such an octet may be left over. Of the chains for a number the one written is
the only one that no zero group stands in front of. -/
namespace BasicEncoding.Base128

/-- The octets of each number: runs in which bit 8 is set on every octet but the last. Behind the
last octet with bit 8 clear there may be a run without an end. -/
def chains (octets : Octets) : List Octets :=
  octets.splitBy fun octet _ => 128 ≤ octet

def Endless (octets : Octets) : Prop :=
  octets ≠ [] ∧ ∀ octet ∈ octets, ¬octet < 128

variable {octets front rest : Octets}

theorem IsChain.splits (h : IsChain octets) :
    octets.IsChain (fun octet _ => decide (128 ≤ octet) = true) ∧
      ∀ last ∈ octets.getLast?, last < 128 := by
  induction h with
  | last low => exact ⟨.singleton _, by simpa using low⟩
  | @more octet rest high later ih =>
      obtain ⟨next, behind, rfl⟩ := List.exists_cons_of_ne_nil later.ne_nil
      refine ⟨.cons_cons (decide_eq_true (UInt8.not_lt.mp high)) ih.1, ?_⟩
      rw [List.getLast?_cons_cons]
      exact ih.2

theorem chains_append (h : IsChain front) (rest : Octets) :
    chains (front ++ rest) = front :: chains rest := by
  obtain ⟨hrun, hlast⟩ := h.splits
  have hcut : ∀ last ∈ front.getLast?, ∀ next ∈ rest.head?, decide (128 ≤ last) = false := by
    intro last hmem _ _
    exact decide_eq_false (UInt8.not_le.mpr (hlast last hmem))
  rw [chains, List.splitBy_append hcut, List.splitBy_of_isChain h.ne_nil hrun]
  rfl

theorem chains_endless (h : Endless octets) : chains octets = [octets] := by
  apply List.splitBy_of_isChain h.1
  apply List.Pairwise.isChain
  apply List.pairwise_of_forall_mem_list
  intro octet hmem _ _
  exact decide_eq_true (UInt8.not_lt.mp (h.2 octet hmem))

theorem endless_or_exists_chain (octets : Octets) (h : octets ≠ []) :
    Endless octets ∨ ∃ front rest, octets = front ++ rest ∧ IsChain front := by
  induction octets with
  | nil => exact absurd rfl h
  | cons octet behind ih =>
      by_cases low : octet < 128
      · exact .inr ⟨[octet], behind, rfl, .last low⟩
      · by_cases hbehind : behind = []
        · subst hbehind
          exact .inl ⟨h, by simpa using low⟩
        · rcases ih hbehind with ⟨-, hhigh⟩ | ⟨front, rest, rfl, hfront⟩
          · exact .inl ⟨h, List.forall_mem_cons.mpr ⟨low, hhigh⟩⟩
          · exact .inr ⟨octet :: front, rest, rfl, .more low hfront⟩

/-- Octets are chains one behind another, and perhaps a run without an end. -/
theorem chains_induction {P : Octets → Prop} (nil : P [])
    (append : ∀ front rest, IsChain front → P rest → P (front ++ rest))
    (endless : ∀ octets, Endless octets → P octets) (octets : Octets) : P octets := by
  induction hsize : octets.length using Nat.strongRecOn generalizing octets with
  | ind size ih =>
      by_cases hne : octets = []
      · exact hne ▸ nil
      · rcases endless_or_exists_chain octets hne with hendless | ⟨front, rest, rfl, hfront⟩
        · exact endless octets hendless
        · have hpos := List.length_pos_iff.mpr hfront.ne_nil
          rw [List.length_append] at hsize
          exact append front rest hfront (ih rest.length (by omega) rest rfl)

/-- No octet is left over, and every number has 64 bits. -/
structure WellSpelled (octets : Octets) : Prop where
  closed : ∀ last ∈ octets.getLast?, last < 128
  bounded : ∀ chain ∈ chains octets, valueFrom 0 chain < 2 ^ 64

theorem not_wellSpelled_of_endless (h : Endless octets) : ¬WellSpelled octets := by
  intro hwell
  have hlast := List.getLast_mem h.1
  exact h.2 _ hlast (hwell.closed _ (List.getLast?_eq_some_getLast h.1))

theorem wellSpelled_append_iff (h : IsChain front) :
    WellSpelled (front ++ rest) ↔ valueFrom 0 front < 2 ^ 64 ∧ WellSpelled rest := by
  have hclosed : (∀ last ∈ (front ++ rest).getLast?, last < 128) ↔
      ∀ last ∈ rest.getLast?, last < 128 := by
    by_cases hrest : rest = []
    · subst hrest
      rw [List.append_nil]
      exact iff_of_true h.splits.2 nofun
    · rw [List.getLast?_append_of_ne_nil front hrest]
  constructor
  · rintro ⟨hc, hb⟩
    rw [chains_append h, List.forall_mem_cons] at hb
    exact ⟨hb.1, hclosed.mp hc, hb.2⟩
  · rintro ⟨hvalue, hc, hb⟩
    refine ⟨hclosed.mpr hc, ?_⟩
    rw [chains_append h, List.forall_mem_cons]
    exact ⟨hvalue, hb⟩

theorem wellSpelled_nil : WellSpelled [] := ⟨nofun, nofun⟩

/-- The octet that stands in front of a chain without changing its number. -/
def zeroGroup : UInt8 := 0x80

theorem IsChain.length_chain_le (h : IsChain octets) :
    (chain (valueFrom 0 octets)).length ≤ octets.length := by
  rcases h.eq_chain_or_longer with hself | hlonger
  · rw [← hself]
  · exact Nat.le_of_lt hlonger

theorem IsChain.eq_chain_iff (h : IsChain octets) :
    chain (valueFrom 0 octets) = octets ↔ octets.head? ≠ some zeroGroup := by
  constructor
  · intro heq hhead
    cases h with
    | @last octet low =>
        cases Option.some.inj hhead
        exact absurd low (by decide)
    | @more octet rest high later =>
        cases Option.some.inj hhead
        have hlength : rest.length + 1 ≤ rest.length :=
          calc rest.length + 1 = (chain (valueFrom 0 rest)).length := (congrArg List.length heq).symm
            _ ≤ rest.length := later.length_chain_le
        omega
  · intro hhead
    by_contra hne
    have hlonger : (chain (valueFrom 0 octets)).length < octets.length :=
      h.eq_chain_or_longer.resolve_left fun hself => hne hself.symm
    obtain ⟨count, hcount⟩ := Nat.exists_eq_add_of_lt hlonger
    obtain ⟨hchain, hvalue⟩ := (isChain_chain (valueFrom 0 octets)).padded (count + 1)
    have hself : octets = List.replicate (count + 1) zeroGroup ++ chain (valueFrom 0 octets) := by
      apply h.eq_of_valueFrom hchain
      · rw [List.length_append, List.length_replicate]
        omega
      · rw [hvalue, valueFrom_chain]
    rw [hself] at hhead
    exact hhead rfl

end BasicEncoding.Base128
