import BasicEncoding.Proofs.Element.Caches
import BasicEncoding.Proofs.Element.Decoded
import BasicEncoding.Proofs.Header.Spelling
import BasicEncoding.Proofs.Integer.Shortest
import BasicEncoding.Proofs.ObjectIdentifier.Contents

/-! Trees that were read take no more octets when they are written. Headers, integers and object
identifiers are written in as few octets as any of their spellings has, and contents that shrink need
no longer a length for it. Numbers of the tag REAL are left out, since one of them has a spelling that
is shorter than what is written for it. -/
namespace BasicEncoding

theorem Length.length_encode_mono {m n : UInt64} (h : m ≤ n) :
    (Length.definite m).encode.length ≤ (Length.definite n).encode.length := by
  have hle : m.toNat ≤ n.toNat := UInt64.le_iff_toNat_le.mp h
  have hfits : octetCount m ≤ octetCount n := by
    refine log2_div_lt (by decide) (Nat.succ_pos _) ?_
    rw [Nat.pow_mul]
    exact Nat.lt_of_le_of_lt hle (lt_octetCount n)
  rw [encode, encode]
  split
  · split
    · exact Nat.le_refl _
    · exact Nat.succ_le_succ (Nat.zero_le _)
  · next hlong =>
    rw [if_neg fun hshort => hlong (UInt64.lt_of_le_of_lt h hshort), List.length_cons,
      List.length_cons, length_lowOctets, length_lowOctets]
    exact Nat.succ_le_succ hfits

/-- Contents that fit the length of an accepted header are not written behind a longer one. -/
theorem length_encodeDefinite_le {identifier : Identifier} {count : UInt64}
    {header contents : Octets} {size : Nat}
    (haccepted : HeaderScan.start.Accepts header ⟨identifier, .definite count⟩)
    (hsize : size = count.toNat) (hle : contents.length ≤ size) :
    (encodeDefinite identifier contents).length ≤ header.length + size := by
  have hword : UInt64.ofNat contents.length ≤ count := by
    rw [UInt64.le_iff_toNat_le, UInt64.toNat_ofNat', ← hsize]
    exact Nat.le_trans (Nat.mod_le _ _) hle
  have hheader := haccepted.length_encode_le
  have hlength := Length.length_encode_mono hword
  rw [Header.encode, List.length_append] at hheader
  rw [encodeDefinite, Header.encode, List.length_append, List.length_append]
  dsimp only at hheader ⊢
  omega

theorem Universal.kind_ne_real {number : UInt32} (h : number ≠ real) : kind number ≠ .real := by
  unfold kind
  rw [if_neg h]
  split_ifs <;> nofun

namespace Value

variable {identifier : Identifier} {contents : Octets} {v : Value}

theorem length_encode_le_of_content {tag : UInt32} {kind : ValueKind} (hkind : kind ≠ .real)
    (h : ofContent tag contents kind = .ok v) : v.encode.length ≤ contents.length := by
  cases kind with
  | nothing =>
      rw [ofContent] at h
      split at h
      · cases h
        exact Nat.zero_le _
      · cases h
  | boolean =>
      obtain ⟨b, hread, rfl⟩ := eq_ok_of_map h
      unfold Boolean.decode at hread
      split at hread
      · exact Nat.le_refl _
      · cases hread
  | integer =>
      obtain ⟨n, hread, rfl⟩ := eq_ok_of_map h
      unfold Integer.decode at hread
      split at hread
      · cases hread
      · exact Integer.length_encode_le_of_read hread
  | octets =>
      cases h
      exact Nat.le_refl _
  | real => exact absurd rfl hkind
  | oid =>
      obtain ⟨o, hread, rfl⟩ := eq_ok_of_map h
      exact (ObjectIdentifier.decode_ok hread).2.2

/-- Only the contents of a REAL can be shorter than what is written for the value read from them. -/
theorem length_encode_le_of_decode (hclass : identifier.tagClass = .universal →
      identifier.number ≠ Universal.real) (h : decode identifier contents = .ok v) :
    v.encode.length ≤ contents.length := by
  unfold decode at h
  split at h
  · next huniversal =>
    exact length_encode_le_of_content (Universal.kind_ne_real (hclass huniversal)) h
  · cases h
    exact Nat.le_refl _

end Value

namespace Element

variable {limits : Limits} {depth : Nat} {octets : Octets} {e : Element}

/-- No node of an element at a depth is a universal primitive with the tag REAL. -/
def RealFreeAt (depth : Nat) (e : Element) : Prop :=
  e.AtNodes (fun _ n => n.identifier ≠ .universal false Universal.real) depth

def RealFree (e : Element) : Prop :=
  e.RealFreeAt 0

theorem length_encodeAll_le {parts : List (Octets × Element)}
    (h : ∀ part ∈ parts, part.2.encode.length ≤ part.1.length) :
    (encodeAll (values parts)).length ≤ (joined parts).length := by
  induction parts with
  | nil => exact Nat.le_refl _
  | cons part parts ih =>
      obtain ⟨hfirst, hothers⟩ := List.forall_mem_cons.mp h
      change (part.2.encode ++ encodeAll (values parts)).length ≤ (part.1 ++ joined parts).length
      rw [List.length_append, List.length_append]
      exact Nat.add_le_add hfirst (ih hothers)

theorem length_encode_le_of_derives (h : Derives limits depth octets e)
    (hreal : e.RealFreeAt depth) : e.encode.length ≤ octets.length := by
  induction h with
  | @primitive _ header contents identifier count value _ accepted form _ length_eq decoded =>
      have hclass : identifier.tagClass = .universal → identifier.number ≠ Universal.real := by
        intro huniversal hnumber
        apply hreal.here
        obtain ⟨tagClass, constructed, number⟩ := identifier
        cases huniversal
        cases form
        cases hnumber
        rfl
      have hvalue := Value.length_encode_le_of_decode hclass decoded
      rw [encode_of_definite (usedFraming_eq_definite form), List.length_append]
      change (encodeDefinite identifier (if identifier.constructed then _ else _)).length ≤ _
      rw [form]
      exact length_encodeDefinite_le accepted length_eq hvalue
  | @definite _ header identifier count parts _ accepted form _ length_eq children ih =>
      have hchildren := length_encodeAll_le fun part hpart =>
        ih part hpart (hreal.child (List.mem_map_of_mem hpart))
      rw [encode, if_pos form, List.length_append]
      exact length_encodeDefinite_le accepted length_eq hchildren
  | @indefinite _ header identifier parts _ accepted form children _ ih =>
      have hchildren := length_encodeAll_le fun part hpart =>
        ih part hpart (hreal.child (List.mem_map_of_mem hpart))
      have hheader := accepted.length_encode_le
      rw [encode, if_pos form]
      simp only [List.length_append]
      omega

/-- A tree without primitive REALs that was read, from whatever octets, is written in no more of
them, and so is every node of it for itself. -/
theorem reencoded_no_longer (hread : (Element.decode octets).result = .ok e)
    (hreal : e.RealFree) :
    e.encode.length ≤ octets.length ∧
      e.AtNodes (fun _ n => ∃ raw, n.raw = some raw ∧ n.encode.length ≤ raw.length) 0 := by
  have hderives := derives_of_decode hread
  refine ⟨length_encode_le_of_derives hderives hreal, ?_⟩
  refine (hderives.nodes.and hreal.subtrees).mono ?_
  rintro d n ⟨⟨raw, hraw, hnode⟩, hfree⟩
  exact ⟨raw, hraw, length_encode_le_of_derives hnode hfree⟩

/-- A zero is read from no contents at all, and written in an octet. -/
example : ((Element.decode [0x09, 0x00]).result.map encode).toOption = some [0x09, 0x01, 0x43] := rfl

/-- Contents of 128 octets, of which the number in front has two more than it needs. -/
def looseOctets : Octets :=
  [0x30, 0x81, 0x80, 0x02, 0x81, 0x02, 0x00, 0x07, 0x04, 0x79] ++ List.replicate 121 0xAA

def loose : Element :=
  (ofChildren (.universal true Universal.sequence) .definite
    [(integer 7 "").withRaw [0x02, 0x81, 0x02, 0x00, 0x07],
      (octetString (List.replicate 121 0xAA) "").withRaw
        ([0x04, 0x79] ++ List.replicate 121 0xAA)]).withRaw looseOctets

set_option maxRecDepth 2000 in
/-- Without them the contents around fit the short form of the length, which saves a third. -/
theorem loose_no_longer :
    (Element.decode looseOctets).result = .ok loose ∧ loose.RealFree ∧
      looseOctets.length = 131 ∧ loose.encode.length = 128 ∧
      loose.encode.length ≤ looseOctets.length := by
  have hread : (Element.decode looseOctets).result = .ok loose := rfl
  have hreal : loose.RealFree :=
    .node nofun (List.forall_mem_cons.mpr ⟨.node nofun nofun,
      List.forall_mem_cons.mpr ⟨.node nofun nofun, nofun⟩⟩)
  exact ⟨hread, hreal, rfl, rfl, (reencoded_no_longer hread hreal).1⟩

end Element

end BasicEncoding
