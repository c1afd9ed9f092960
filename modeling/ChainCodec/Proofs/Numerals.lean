import ChainCodec.Proofs.Text

/-! # The numerals of the decimal texts

    Reading a decimal text takes one minus at most and then digits only, as
    many as there are and zeros in front included.  `Numeral` is that grammar,
    with the integer that each of its words denotes, and reading finds a word
    of it exactly where the integer fits 128 bits. -/

namespace ChainCodec.Decimal

/-- One digit or more, with or without a minus before them. -/
inductive Numeral : List Char → Int → Prop
  | plain {ds : List Char} (hne : ds ≠ []) (hdigits : ∀ d ∈ ds, d.isDigit = true) :
      Numeral ds (valueOf ds)
  | negated {ds : List Char} (hne : ds ≠ []) (hdigits : ∀ d ∈ ds, d.isDigit = true) :
      Numeral ('-' :: ds) (-(valueOf ds : Int))

theorem not_minus_mem_of_isDigit {ds : List Char} (h : ∀ d ∈ ds, d.isDigit = true) :
    '-' ∉ ds := by
  intro hmem
  have := h _ hmem
  cases this

/-- What reading checks of the text after the sign. -/
theorem digits_checked {ds : List Char} :
    (ds.isEmpty || !ds.all Char.isDigit) = false ↔ ds ≠ [] ∧ ∀ d ∈ ds, d.isDigit = true := by
  rw [Bool.or_eq_false_iff, List.isEmpty_eq_false_iff, Bool.not_eq_false', List.all_eq_true]

/-- A minus at the head is the sign, and all else has no sign. -/
theorem splitSign_cases (cs : List Char) :
    (∃ ds, cs = '-' :: ds ∧ splitSign cs = (true, ds)) ∨ splitSign cs = (false, cs) := by
  unfold splitSign
  split
  · exact .inl ⟨_, rfl, rfl⟩
  · exact .inr rfl

/-- The integer of the sign and the digits, whatever its size. -/
def signed : Bool × List Char → Int
  | (negative, ds) => if negative then -(valueOf ds : Int) else valueOf ds

/-- Taking the sign off tells the two kinds of numerals apart. -/
theorem numeral_iff {cs : List Char} {n : Int} :
    Numeral cs n ↔ (splitSign cs).2 ≠ [] ∧ (∀ d ∈ (splitSign cs).2, d.isDigit = true) ∧
      signed (splitSign cs) = n := by
  constructor
  · intro h
    cases h with
    | plain hne hdigits =>
      rw [splitSign_of_not_minus (not_minus_mem_of_isDigit hdigits)]
      exact ⟨hne, hdigits, rfl⟩
    | negated hne hdigits => exact ⟨hne, hdigits, rfl⟩
  · rintro ⟨hne, hdigits, rfl⟩
    rcases splitSign_cases cs with ⟨ds, rfl, -⟩ | hsplit
    · exact .negated hne hdigits
    · rw [hsplit] at hne hdigits ⊢
      exact .plain hne hdigits

/-- The numerals are the texts that pass the check of the digits. -/
theorem numeral_iff_checked {cs : List Char} {n : Int} :
    Numeral cs n ↔ ((splitSign cs).2.isEmpty || !(splitSign cs).2.all Char.isDigit) = false ∧
      signed (splitSign cs) = n := by
  rw [numeral_iff, digits_checked, and_assoc]

/-- A text denotes one integer at most. -/
theorem Numeral.unique {cs : List Char} {m n : Int} (hm : Numeral cs m) (hn : Numeral cs n) :
    m = n :=
  (numeral_iff.1 hm).2.2.symm.trans (numeral_iff.1 hn).2.2

/-- Reading is the check of the digits, then the check of the range. -/
theorem parse_eq (text : String) :
    parse text =
      if ((splitSign text.toList).2.isEmpty || !(splitSign text.toList).2.all Char.isDigit) then
        .error (.notDecimal text)
      else if least ≤ signed (splitSign text.toList) ∧
          signed (splitSign text.toList) ≤ greatest then
        .ok (signed (splitSign text.toList))
      else .error (.outOfRange text) := rfl

/-- A text that is no numeral is refused for its form, and a numeral only if its
    integer does not fit. -/
theorem parse_cases (text : String) :
    (¬ (∃ n, Numeral text.toList n) ∧ parse text = .error (.notDecimal text)) ∨
      ∃ n, Numeral text.toList n ∧
        parse text = if least ≤ n ∧ n ≤ greatest then .ok n else .error (.outOfRange text) := by
  rw [parse_eq]
  split
  · rename_i hchecked
    refine .inl ⟨?_, rfl⟩
    rintro ⟨n, hn⟩
    rw [(numeral_iff_checked.1 hn).1] at hchecked
    cases hchecked
  · rename_i hchecked
    exact .inr ⟨_, numeral_iff_checked.2 ⟨Bool.eq_false_iff.2 hchecked, rfl⟩, rfl⟩

/-- The numerals are the texts that are read, up to the range of 128 bits. -/
theorem parse_eq_ok {text : String} {n : Int} :
    parse text = .ok n ↔ Numeral text.toList n ∧ least ≤ n ∧ n ≤ greatest := by
  rcases parse_cases text with ⟨hnone, hparse⟩ | ⟨m, hm, hparse⟩
  · rw [hparse]
    constructor
    · intro h
      cases h
    · rintro ⟨hn, -⟩
      exact absurd ⟨n, hn⟩ hnone
  · rw [hparse]
    constructor
    · intro h
      split at h
      · rename_i hrange
        cases h
        exact ⟨hm, hrange⟩
      · cases h
    · rintro ⟨hn, hrange⟩
      rw [hm.unique hn, if_pos hrange]

/-! ## Digit by digit -/

/-- The number that digits denote behind the digits of `n`. -/
def valueFrom (n : Nat) (ds : List Char) : Nat := ds.foldl (fun n d => 10 * n + digitValue d) n

theorem valueFrom_zero (ds : List Char) : valueFrom 0 ds = valueOf ds := by
  simp only [valueFrom, valueOf, Radix.ofDigits, List.foldl_map]

theorem valueFrom_cons (n : Nat) (d : Char) (ds : List Char) :
    valueFrom n (d :: ds) = valueFrom (10 * n + digitValue d) ds := by
  simp only [valueFrom, List.foldl_cons]

end ChainCodec.Decimal
