import BasicEncoding.ObjectIdentifier.Dotted
import BasicEncoding.Proofs.ObjectIdentifier.RoundTrip

/-! Which texts are object identifiers, and which of them are what is written. The form of a text is
settled by splitting it at its dots; a text has one such form at most, so what is said of its runs is
said of the text. Runs that are not padded are the decimal digits of their numbers. -/
namespace BasicEncoding.ObjectIdentifier

/-- A text of two or more runs of ASCII digits, joined by single dots. -/
structure Dotted (text : String) (runs : List (List Char)) : Prop where
  two_le : 2 ≤ runs.length
  joined : text.toList = ['.'].intercalate runs
  ne_nil : ∀ run ∈ runs, run ≠ []
  digits : ∀ run ∈ runs, ∀ c ∈ run, c.isDigit = true

/-- The number that a run denotes, without a bound. -/
def number (run : List Char) : Nat :=
  Nat.ofDigitChars 10 run 0

/-- A zero stands in front of other digits. -/
def Padded (run : List Char) : Prop :=
  ∃ digit rest, run = '0' :: digit :: rest

/-- Numbers that are the arcs of an object identifier. -/
inductive ArcNumbers : List Nat → Prop
  | intro {first second : Nat} {rest : List Nat}
      (words : ∀ n ∈ first :: second :: rest, n < 2 ^ 64) (first_le : first ≤ 2)
      (second_lt : first < 2 → second < 40) (sum_lt : 40 * first + second < 2 ^ 64) :
      ArcNumbers (first :: second :: rest)

variable {text : String} {runs : List (List Char)} {run : List Char}

/-! ### The form of a text -/

theorem dottedParts_eq_splitOn (text : List Char) : dottedParts text = text.splitOn '.' := by
  induction text with
  | nil => rfl
  | cons c rest ih =>
      rw [List.splitOn, List.splitOnP_cons_eq_if_modifyHead, dottedParts, ih, List.splitOn]
      by_cases hdot : c = '.'
      · rw [if_pos hdot, if_pos (beq_iff_eq.mpr hdot)]
      · rw [if_neg hdot, if_neg (mt beq_iff_eq.mp hdot)]
        cases hparts : rest.splitOnP (· == '.') with
        | nil => exact absurd hparts (List.splitOnP_ne_nil _ _)
        | cons part parts => rfl

theorem isRun_eq_true_iff : isRun run = true ↔ run ≠ [] ∧ ∀ c ∈ run, c.isDigit = true := by
  simp [isRun]

theorem Dotted.dottedParts_eq (h : Dotted text runs) : dottedParts text.toList = runs := by
  rw [dottedParts_eq_splitOn, h.joined]
  apply List.splitOn_intercalate
  · intro run hrun hdot
    exact absurd (h.digits run hrun '.' hdot) (by decide)
  · rintro rfl
    exact absurd h.two_le (by decide)

theorem dotted_dottedParts_iff :
    Dotted text (dottedParts text.toList) ↔
      2 ≤ (dottedParts text.toList).length ∧ (dottedParts text.toList).all isRun = true := by
  simp only [List.all_eq_true, isRun_eq_true_iff]
  constructor
  · intro h
    exact ⟨h.two_le, fun run hrun => ⟨h.ne_nil run hrun, h.digits run hrun⟩⟩
  · rintro ⟨htwo, hruns⟩
    refine ⟨htwo, ?_, fun run hrun => (hruns run hrun).1, fun run hrun => (hruns run hrun).2⟩
    rw [dottedParts_eq_splitOn, List.intercalate_splitOn]

/-! ### The arcs of a text -/

theorem decimalValue_eq_number (run : List Char) : decimalValue run = number run := by
  unfold decimalValue number Nat.ofDigitChars
  congr 1
  funext value c
  rw [Nat.mul_comm]

theorem readArc_eq_ok_iff {arc : UInt64} :
    readArc run = .ok arc ↔ arc.toNat = number run := by
  unfold readArc
  rw [decimalValue_eq_number]
  dsimp only
  split
  · next hlarge =>
    have hword := arc.toNat_lt
    exact iff_of_false nofun (by omega)
  · next hsmall =>
    rw [Except.ok.injEq, ← UInt64.toNat_inj, UInt64.toNat_ofNat_of_lt' (Nat.lt_of_not_le hsmall)]
    exact eq_comm

theorem readArcs_eq_ok_iff {arcs : List UInt64} :
    readArcs runs = .ok arcs ↔ arcs.map UInt64.toNat = runs.map number := by
  induction runs generalizing arcs with
  | nil =>
      rw [readArcs, Except.ok.injEq, List.map_nil, List.map_eq_nil_iff]
      exact eq_comm
  | cons run runs ih =>
      have hread : readArcs (run :: runs) = (readArc run).bind fun arc =>
          (readArcs runs).map fun arcs => arc :: arcs := rfl
      cases arcs with
      | nil =>
        refine iff_of_false ?_ nofun
        rw [hread]
        cases readArc run with
        | error _ => nofun
        | ok _ => cases readArcs runs <;> nofun
      | cons arc arcs =>
        rw [List.map_cons, List.map_cons, List.cons.injEq, ← readArc_eq_ok_iff, ← ih, hread]
        cases readArc run with
        | error _ => exact iff_of_false nofun fun h => nomatch h.1
        | ok _ =>
          cases readArcs runs with
          | error _ => exact iff_of_false nofun fun h => nomatch h.2
          | ok _ =>
            change Except.ok _ = Except.ok _ ↔ _
            simp only [Except.ok.injEq, List.cons.injEq]

/-- A text is an object identifier where its runs denote the arcs. -/
theorem ofText_eq_ok_iff {o : ObjectIdentifier} :
    ofText text = .ok o ↔ ∃ runs, Dotted text runs ∧ o.arcs.map UInt64.toNat = runs.map number := by
  have hread : ofText text = .ok o ↔ Dotted text (dottedParts text.toList) ∧
      readArcs (dottedParts text.toList) = .ok o.arcs := by
    rw [dotted_dottedParts_iff]
    unfold ofText
    dsimp only
    split
    · next hform =>
      rw [and_iff_right hform]
      cases readArcs (dottedParts text.toList) with
      | error _ => exact iff_of_false nofun nofun
      | ok arcs =>
        rw [Except.ok.injEq]
        exact ofArcs_eq_ok_iff.trans eq_comm
    · next hform => exact iff_of_false nofun fun h => hform h.1
  rw [hread, readArcs_eq_ok_iff]
  constructor
  · intro h
    exact ⟨_, h⟩
  · rintro ⟨runs, hdotted, harcs⟩
    rw [hdotted.dottedParts_eq]
    exact ⟨hdotted, harcs⟩

theorem arcNumbers_iff {numbers : List Nat} :
    ArcNumbers numbers ↔ ∃ o : ObjectIdentifier, o.arcs.map UInt64.toNat = numbers := by
  constructor
  · rintro ⟨words, first_le, second_lt, sum_lt⟩
    obtain ⟨hfirst, hwords⟩ := List.forall_mem_cons.mp words
    obtain ⟨hsecond, -⟩ := List.forall_mem_cons.mp hwords
    rename_i first second rest
    have hone : (UInt64.ofNat first).toNat = first := UInt64.toNat_ofNat_of_lt' hfirst
    have htwo : (UInt64.ofNat second).toNat = second := UInt64.toNat_ofNat_of_lt' hsecond
    refine ⟨⟨(first :: second :: rest).map UInt64.ofNat, .intro ?_ ?_ ?_⟩, map_toNat_ofNat words⟩
    · rw [UInt64.le_iff_toNat_le, hone]
      exact first_le
    · rw [UInt64.lt_iff_toNat_lt, UInt64.lt_iff_toNat_lt, hone, htwo]
      exact second_lt
    · rw [hone, htwo]
      exact sum_lt
  · rintro ⟨⟨arcs, valid⟩, rfl⟩
    have words : ∀ n ∈ arcs.map UInt64.toNat, n < 2 ^ 64 := by
      rw [List.forall_mem_map]
      exact fun arc _ => arc.toNat_lt
    obtain ⟨first_le, second_lt, sum_lt⟩ := valid
    rw [UInt64.le_iff_toNat_le] at first_le
    rw [UInt64.lt_iff_toNat_lt, UInt64.lt_iff_toNat_lt] at second_lt
    exact .intro words first_le second_lt sum_lt

/-! ### The text of an identifier -/

def writtenRuns (o : ObjectIdentifier) : List (List Char) :=
  o.arcs.map fun arc => Nat.toDigits 10 arc.toNat

theorem toList_text (o : ObjectIdentifier) : o.text.toList = ['.'].intercalate o.writtenRuns := by
  rw [text, String.toList_intercalate, List.map_map, writtenRuns]
  congr 1
  apply List.map_congr_left
  intro arc _
  exact Nat.toList_repr

theorem dotted_text (o : ObjectIdentifier) : Dotted o.text o.writtenRuns := by
  refine ⟨?_, o.toList_text, ?_, ?_⟩
  · obtain ⟨arcs, valid⟩ := o
    obtain ⟨-, -, -⟩ := valid
    exact Nat.le_add_left 2 _
  · intro run hrun
    obtain ⟨arc, -, rfl⟩ := List.mem_map.mp hrun
    exact Nat.toDigits_ne_nil
  · intro run hrun c hc
    obtain ⟨arc, -, rfl⟩ := List.mem_map.mp hrun
    exact Nat.isDigit_of_mem_toDigits (by decide) (by decide) hc

theorem map_number_writtenRuns (o : ObjectIdentifier) :
    o.writtenRuns.map number = o.arcs.map UInt64.toNat := by
  rw [writtenRuns, List.map_map]
  apply List.map_congr_left
  intro arc _
  exact Nat.ofDigitChars_toDigits (by decide) (by decide)

theorem ofText_text (o : ObjectIdentifier) : ofText o.text = .ok o :=
  ofText_eq_ok_iff.mpr ⟨o.writtenRuns, o.dotted_text, o.map_number_writtenRuns.symm⟩

/-! ### Runs that are written -/

theorem digitChar_of_isDigit {c : Char} (h : c.isDigit = true) :
    c.toNat - '0'.toNat < 10 ∧ Nat.digitChar (c.toNat - '0'.toNat) = c := by
  obtain ⟨hlow, hhigh⟩ := Char.isDigit_iff_toNat.mp h
  have hzero : '0'.toNat = 48 := rfl
  have hnine : '9'.toNat = 57 := rfl
  have hlt : c.toNat - '0'.toNat < 10 := by omega
  refine ⟨hlt, Char.toNat_inj.mp ?_⟩
  rw [Nat.toNat_digitChar_of_lt_ten hlt]
  omega

/-- Digits behind those of a positive number are the digits of the number that they lead to. -/
theorem toDigits_append_digits {digits : List Char} (h : ∀ c ∈ digits, c.isDigit = true)
    {value : Nat} (hpos : 0 < value) :
    Nat.toDigits 10 value ++ digits = Nat.toDigits 10 (Nat.ofDigitChars 10 digits value) := by
  induction digits generalizing value with
  | nil => rw [List.append_nil, Nat.ofDigitChars_nil]
  | cons c digits ih =>
      obtain ⟨hc, hdigits⟩ := List.forall_mem_cons.mp h
      obtain ⟨hlt, hchar⟩ := digitChar_of_isDigit hc
      have hpush : Nat.toDigits 10 value ++ [c] =
          Nat.toDigits 10 (10 * value + (c.toNat - '0'.toNat)) := by
        rw [← Nat.toDigits_append_toDigits (by decide) hpos hlt, Nat.toDigits_of_lt_base hlt, hchar]
      calc Nat.toDigits 10 value ++ c :: digits
        _ = Nat.toDigits 10 value ++ [c] ++ digits := List.append_cons _ _ _
        _ = Nat.toDigits 10 (10 * value + (c.toNat - '0'.toNat)) ++ digits := by rw [hpush]
        _ = Nat.toDigits 10 (Nat.ofDigitChars 10 (c :: digits) value) := by
          rw [ih hdigits (by omega), Nat.ofDigitChars_cons]

theorem number_cons (c : Char) (rest : List Char) :
    number (c :: rest) = Nat.ofDigitChars 10 rest (c.toNat - '0'.toNat) := by
  rw [number, Nat.ofDigitChars_cons, Nat.mul_zero, Nat.zero_add]

theorem toDigits_number (hne : run ≠ []) (hdigits : ∀ c ∈ run, c.isDigit = true)
    (hpadded : ¬Padded run) : Nat.toDigits 10 (number run) = run := by
  obtain ⟨c, rest, rfl⟩ := List.exists_cons_of_ne_nil hne
  obtain ⟨hc, hrest⟩ := List.forall_mem_cons.mp hdigits
  by_cases hzero : c = '0'
  · subst hzero
    cases rest with
    | nil => rfl
    | cons digit rest => exact absurd ⟨digit, rest, rfl⟩ hpadded
  · obtain ⟨hlt, hchar⟩ := digitChar_of_isDigit hc
    have hpos : 0 < c.toNat - '0'.toNat := by
      have hlow := (Char.isDigit_iff_toNat.mp hc).1
      have hne : c.toNat ≠ '0'.toNat := mt Char.toNat_inj.mp hzero
      omega
    rw [number_cons, ← toDigits_append_digits hrest hpos, Nat.toDigits_of_lt_base hlt, hchar]
    rfl

theorem number_lt (hdigits : ∀ c ∈ run, c.isDigit = true) : number run < 10 ^ run.length := by
  induction run with
  | nil => exact Nat.one_pos
  | cons c rest ih =>
      obtain ⟨hc, hrest⟩ := List.forall_mem_cons.mp hdigits
      have hlt := (digitChar_of_isDigit hc).1
      have hbehind : Nat.ofDigitChars 10 rest 0 < 10 ^ rest.length := ih hrest
      have hdigit : 10 ^ rest.length * (c.toNat - '0'.toNat) ≤ 10 ^ rest.length * 9 :=
        Nat.mul_le_mul_left _ (Nat.le_of_lt_succ hlt)
      rw [number_cons, Nat.ofDigitChars_eq_ofDigitChars_zero, List.length_cons, Nat.pow_succ]
      omega

/-- A run is what is written for its number exactly where it is not padded. -/
theorem toDigits_number_iff (hne : run ≠ []) (hdigits : ∀ c ∈ run, c.isDigit = true) :
    Nat.toDigits 10 (number run) = run ↔ ¬Padded run := by
  refine ⟨?_, toDigits_number hne hdigits⟩
  rintro heq ⟨digit, rest, rfl⟩
  obtain ⟨-, hbehind⟩ := List.forall_mem_cons.mp hdigits
  -- the zero in front adds nothing to the number, which has fewer digits then
  have hnumber : number ('0' :: digit :: rest) = number (digit :: rest) := number_cons _ _
  have hlength : (Nat.toDigits 10 (number (digit :: rest))).length ≤ (digit :: rest).length :=
    (Nat.length_toDigits_le_iff (by decide) (Nat.succ_pos _)).mpr (number_lt hbehind)
  rw [← hnumber, heq, List.length_cons] at hlength
  exact absurd hlength (Nat.not_succ_le_self _)

/-- A text that is read is what is written where none of its runs is padded. -/
theorem text_eq_iff {o : ObjectIdentifier} (hdotted : Dotted text runs)
    (harcs : o.arcs.map UInt64.toNat = runs.map number) :
    o.text = text ↔ ∀ run ∈ runs, ¬Padded run := by
  have hwritten : o.writtenRuns = runs.map fun run => Nat.toDigits 10 (number run) := by
    have hdigits : o.writtenRuns = (o.arcs.map UInt64.toNat).map (Nat.toDigits 10) := by
      rw [List.map_map]
      rfl
    rw [hdigits, harcs, List.map_map]
    rfl
  have hruns : o.text = text ↔ o.writtenRuns = runs := by
    constructor
    · intro htext
      have hsplit := o.dotted_text.dottedParts_eq
      rw [htext, hdotted.dottedParts_eq] at hsplit
      exact hsplit.symm
    · intro hruns
      apply String.toList_inj.mp
      rw [toList_text, hruns, hdotted.joined]
  have hself := List.map_inj_left (l := runs) (f := fun run => Nat.toDigits 10 (number run))
    (g := id)
  rw [List.map_id] at hself
  have hrun : ∀ run ∈ runs, (Nat.toDigits 10 (number run) = run ↔ ¬Padded run) :=
    fun run hmem => toDigits_number_iff (hdotted.ne_nil run hmem) (hdotted.digits run hmem)
  rw [hruns, hwritten, hself]
  exact ⟨fun h run hmem => (hrun run hmem).mp (h run hmem),
    fun h run hmem => (hrun run hmem).mpr (h run hmem)⟩

/-- A text is read as an object identifier if it is two or more runs of digits with single dots
between them and the numbers of the runs are arcs, and if it is not, it is refused. What is read has
these arcs, and is written as the text was where no run is padded. An identifier is read back from
its text. -/
theorem text_exact (text : String) :
    ((∃ read, ofText text = .ok read) ↔
      ∃ runs, Dotted text runs ∧ ArcNumbers (runs.map number)) ∧
    (∀ read runs, ofText text = .ok read → Dotted text runs →
      read.arcs.map UInt64.toNat = runs.map number ∧
      (read.text = text ↔ ∀ run ∈ runs, ¬Padded run)) ∧
    ∀ o : ObjectIdentifier, ofText o.text = .ok o := by
  refine ⟨?_, ?_, ofText_text⟩
  · simp only [ofText_eq_ok_iff, arcNumbers_iff]
    constructor
    · rintro ⟨read, runs, hdotted, harcs⟩
      exact ⟨runs, hdotted, read, harcs⟩
    · rintro ⟨runs, hdotted, read, harcs⟩
      exact ⟨read, runs, hdotted, harcs⟩
  · intro read runs hread hdotted
    obtain ⟨others, hothers, harcs⟩ := ofText_eq_ok_iff.mp hread
    obtain rfl : others = runs := hothers.dottedParts_eq.symm.trans hdotted.dottedParts_eq
    exact ⟨harcs, text_eq_iff hdotted harcs⟩

def seven : ObjectIdentifier := ⟨[2, 999, 7], .intro (by decide) (by decide) (by decide)⟩

/-- A padded arc is read, and not written again as it was. -/
theorem paddedSeven_read :
    (∃ read, ofText "2.999.007" = .ok read) ∧ ofText "2.999.007" = .ok seven ∧
      seven.text ≠ "2.999.007" ∧ seven.text = "2.999.7" ∧ ofText seven.text = .ok seven := by
  obtain ⟨hreads, harcs, hback⟩ := text_exact "2.999.007"
  have hdotted : Dotted "2.999.007" [['2'], ['9', '9', '9'], ['0', '0', '7']] :=
    dotted_dottedParts_iff.mpr ⟨by decide, rfl⟩
  have hnumbers : ArcNumbers ([['2'], ['9', '9', '9'], ['0', '0', '7']].map number) :=
    .intro (by decide) (by decide) (by decide) (by decide)
  have hread : ofText "2.999.007" = .ok seven := rfl
  obtain ⟨-, hwritten⟩ := harcs seven _ hread hdotted
  refine ⟨hreads.mpr ⟨_, hdotted, hnumbers⟩, hread, fun htext => ?_, rfl, hback seven⟩
  exact hwritten.mp htext ['0', '0', '7'] (by decide) ⟨'0', ['7'], rfl⟩

end BasicEncoding.ObjectIdentifier
