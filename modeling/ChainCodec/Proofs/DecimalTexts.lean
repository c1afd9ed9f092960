import ChainCodec.Codec.Check
import ChainCodec.Proofs.Numerals
import Mathlib

/-! # Which texts are decimal integers

    A text is read in two passes.  The first one looks at its form only: a
    minus may stand in front, and then there are digits.  The second one is
    the common reader of 128-bit integers, which goes from digit to digit,
    checks each product and each sum, and would take a plus as well.
    `parse_eq_inTwoPasses` says that the passes agree on what they see, so that
    nothing is lost between them.

    Hence exactly the numerals of the 128-bit integers are read, each as what
    its digits count for: `decimal_exact`. -/

namespace ChainCodec

/-! ## Bytes of a text -/

namespace Utf8

/-- No byte of a character from 128 on is one of a character below. -/
theorem le_of_mem_encodeChar {c : Char} (h : 128 ≤ c.toNat) :
    ∀ b ∈ String.utf8EncodeChar c, 128 ≤ b.toNat := by
  have hlow : ¬ c.val.toNat ≤ 127 := Nat.not_le.2 h
  intro b hb
  simp only [String.utf8EncodeChar, if_neg hlow] at hb
  split at hb
  · simp only [List.mem_cons, List.not_mem_nil, or_false] at hb
    rcases hb with rfl | rfl <;> rw [UInt8.toNat_ofNat'] <;> omega
  · split at hb
    · simp only [List.mem_cons, List.not_mem_nil, or_false] at hb
      rcases hb with rfl | rfl | rfl <;> rw [UInt8.toNat_ofNat'] <;> omega
    · simp only [List.mem_cons, List.not_mem_nil, or_false] at hb
      rcases hb with rfl | rfl | rfl | rfl <;> rw [UInt8.toNat_ofNat'] <;> omega

/-- A character that starts with an ASCII byte is the character of that byte. -/
theorem toNat_eq_of_encodeChar {c : Char} {b : UInt8} {bs : Bytes}
    (h : String.utf8EncodeChar c = b :: bs) (hb : b.toNat < 128) : c.toNat = b.toNat := by
  by_cases hc : c.toNat < 128
  · rw [utf8EncodeChar_ascii hc, List.cons.injEq] at h
    rw [← h.1, UInt8.toNat_ofNat']
    omega
  · have := le_of_mem_encodeChar (Nat.not_lt.1 hc) b (by simp [h])
    omega

end Utf8

namespace Decimal

/-! ## Two passes -/

def plusByte : UInt8 := 43

def minusByte : UInt8 := 45

def digitOfByte? (b : UInt8) : Option Nat :=
  if 48 ≤ b.toNat ∧ b.toNat ≤ 57 then some (b.toNat - 48) else none

/-- A result of 128 bits. -/
def checked (n : Int) : Option Int := if least ≤ n ∧ n ≤ greatest then some n else none

/-- One digit more.  Behind a minus the digits are taken away, so that the
    least integer is reached as well. -/
def push (negative : Bool) (n : Int) (b : UInt8) : Option Int := do
  let product ← checked (n * 10)
  let d ← digitOfByte? b
  checked (if negative then product - d else product + d)

/-- The reader of 128-bit integers.  Either sign may come first, but not alone. -/
def readInt128 : Bytes → Option Int
  | [] => none
  | b :: ds =>
      if b = plusByte ∨ b = minusByte then
        if ds.isEmpty then none else ds.foldlM (push (b == minusByte)) 0
      else (b :: ds).foldlM (push false) 0

def dropMinus : Bytes → Bytes
  | [] => []
  | b :: bs => if b = minusByte then bs else b :: bs

/-- The form of the text first, and then the integer. -/
def parseInTwoPasses (text : String) : Except Fault Int :=
  let bytes := Utf8.encode text
  let digits := dropMinus bytes
  if digits.isEmpty || !digits.all fun b => (digitOfByte? b).isSome then
    .error (.notDecimal text)
  else
    match readInt128 bytes with
    | some n => .ok n
    | none => .error (.outOfRange text)

/-! ## The first pass -/

/-- The byte of a digit stands for what the digit does. -/
theorem digitOfByte?_ascii {c : Char} (h : c.toNat < 128) :
    digitOfByte? (UInt8.ofNat c.toNat) = if c.isDigit then some (digitValue c) else none := by
  have hbyte : (UInt8.ofNat c.toNat).toNat = c.toNat := by
    rw [UInt8.toNat_ofNat']
    omega
  have hzero : '0'.toNat = 48 := rfl
  simp only [digitOfByte?, hbyte, isDigit_iff, digitValue, hzero]

theorem all_isDigitByte_encodeChar (c : Char) :
    (String.utf8EncodeChar c).all (fun b => (digitOfByte? b).isSome) = c.isDigit := by
  by_cases h : c.toNat < 128
  · rw [utf8EncodeChar_ascii h, List.all_cons, List.all_nil, Bool.and_true, digitOfByte?_ascii h]
    cases c.isDigit <;> rfl
  · -- All bytes are too great for a digit, and there is one at least.
    have hdigit : c.isDigit = false := by
      rw [Bool.eq_false_iff, ne_eq, isDigit_iff]
      omega
    obtain ⟨b, bs, hbs⟩ := List.exists_cons_of_ne_nil (String.utf8EncodeChar_ne_nil (c := c))
    have hb : 128 ≤ b.toNat := Utf8.le_of_mem_encodeChar (Nat.not_lt.1 h) b (by simp [hbs])
    have hnone : digitOfByte? b = none := by
      rw [digitOfByte?, if_neg (by omega)]
    rw [hbs, List.all_cons, hnone, hdigit]
    rfl

theorem all_isDigitByte (cs : List Char) :
    (cs.flatMap String.utf8EncodeChar).all (fun b => (digitOfByte? b).isSome) =
      cs.all Char.isDigit := by
  rw [List.all_flatMap]
  exact congrArg cs.all (funext all_isDigitByte_encodeChar)

theorem isEmpty_flatMap_encodeChar (cs : List Char) :
    (cs.flatMap String.utf8EncodeChar).isEmpty = cs.isEmpty := by
  cases cs with
  | nil => rfl
  | cons c cs => simp [String.utf8EncodeChar_ne_nil]

/-- Only the minus starts with its byte. -/
theorem dropMinus_flatMap_encodeChar (cs : List Char) :
    dropMinus (cs.flatMap String.utf8EncodeChar) =
      (splitSign cs).2.flatMap String.utf8EncodeChar := by
  rcases splitSign_cases cs with ⟨ds, rfl, hsplit⟩ | hsplit
  · rw [hsplit]
    rfl
  · rw [hsplit]
    cases cs with
    | nil => rfl
    | cons c cs =>
      have hc : c ≠ '-' := by
        rintro rfl
        cases hsplit
      obtain ⟨b, bs, hbs⟩ := List.exists_cons_of_ne_nil (String.utf8EncodeChar_ne_nil (c := c))
      have hb : b ≠ minusByte := by
        rintro rfl
        exact hc (Char.toNat_inj.1 (Utf8.toNat_eq_of_encodeChar hbs (by decide)))
      rw [List.flatMap_cons, hbs, List.cons_append, dropMinus, if_neg hb]

/-! ## The second pass -/

/-- The integer of a sign and a number. -/
def withSign (negative : Bool) (n : Nat) : Int := if negative then -(n : Int) else n

theorem le_valueFrom (n : Nat) (ds : List Char) : n ≤ valueFrom n ds := by
  induction ds generalizing n with
  | nil => exact Nat.le_refl n
  | cons d ds ih =>
    rw [valueFrom_cons]
    have := ih (10 * n + digitValue d)
    omega

theorem least_eq : least = -2 ^ 127 := by decide

theorem greatest_eq : greatest = 2 ^ 127 - 1 := by decide

/-- Where an integer fits, those of its sign nearer to zero do too. -/
theorem fits_of_le {negative : Bool} {m n : Nat} (h : m ≤ n)
    (hn : least ≤ withSign negative n ∧ withSign negative n ≤ greatest) :
    least ≤ withSign negative m ∧ withSign negative m ≤ greatest := by
  have hleast : least ≤ 0 := by decide
  have hgreatest : 0 ≤ greatest := by decide
  cases negative <;> simp only [withSign, if_true, Bool.false_eq_true, if_false] at hn ⊢ <;> omega

theorem push_digit (negative : Bool) (n : Nat) {d : Char} (hd : d.isDigit = true) :
    push negative (withSign negative n) (UInt8.ofNat d.toNat) =
      checked (withSign negative (10 * n + digitValue d)) := by
  have hascii : d.toNat < 128 := by
    have := isDigit_iff.1 hd
    omega
  have hproduct : withSign negative n * 10 = withSign negative (10 * n) := by
    cases negative <;> simp only [withSign, if_true, Bool.false_eq_true, if_false] <;> omega
  have hsum : (if negative then withSign negative (10 * n) - (digitValue d : Int)
      else withSign negative (10 * n) + digitValue d) = withSign negative (10 * n + digitValue d) := by
    cases negative <;> simp only [withSign, if_true, Bool.false_eq_true, if_false] <;> omega
  rw [push, digitOfByte?_ascii hascii, if_pos hd, hproduct]
  by_cases hfits : least ≤ withSign negative (10 * n) ∧ withSign negative (10 * n) ≤ greatest
  · rw [checked, if_pos hfits]
    exact congrArg checked hsum
  · -- Where the product does not fit, the sum would not either.
    have hover : ¬ (least ≤ withSign negative (10 * n + digitValue d) ∧
        withSign negative (10 * n + digitValue d) ≤ greatest) :=
      fun h => hfits (fits_of_le (Nat.le_add_right _ _) h)
    rw [checked, if_neg hfits, checked, if_neg hover]
    rfl

/-- Checking at each digit refuses the integers that do not fit, and no others. -/
theorem foldlM_push (negative : Bool) {ds : List Char} (hds : ∀ d ∈ ds, d.isDigit = true) (n : Nat)
    (hn : least ≤ withSign negative n ∧ withSign negative n ≤ greatest) :
    (ds.map fun d => UInt8.ofNat d.toNat).foldlM (push negative) (withSign negative n) =
      checked (withSign negative (valueFrom n ds)) := by
  induction ds generalizing n with
  | nil =>
    rw [valueFrom, List.foldl_nil, checked, if_pos hn]
    rfl
  | cons d ds ih =>
    rw [List.map_cons, List.foldlM_cons, push_digit negative n (hds d (by simp)), valueFrom_cons]
    by_cases hfits : least ≤ withSign negative (10 * n + digitValue d) ∧
        withSign negative (10 * n + digitValue d) ≤ greatest
    · rw [checked, if_pos hfits]
      exact ih (fun e he => hds e (by simp [he])) _ hfits
    · -- What is left to read only leads further out of the range.
      have hover : ¬ (least ≤ withSign negative (valueFrom (10 * n + digitValue d) ds) ∧
          withSign negative (valueFrom (10 * n + digitValue d) ds) ≤ greatest) :=
        fun h => hfits (fits_of_le (le_valueFrom _ ds) h)
      rw [checked, if_neg hfits, checked, if_neg hover]
      rfl

theorem flatMap_encodeChar_of_digits {ds : List Char} (hds : ∀ d ∈ ds, d.isDigit = true) :
    ds.flatMap String.utf8EncodeChar = ds.map fun d => UInt8.ofNat d.toNat := by
  refine flatMap_utf8EncodeChar_ascii fun d hd => ?_
  have := isDigit_iff.1 (hds d hd)
  omega

/-- After the first pass the reader finds the integer of the sign and the
    digits, unless it does not fit. -/
theorem readInt128_of_digits {cs : List Char} (hne : (splitSign cs).2 ≠ [])
    (hdigits : ∀ d ∈ (splitSign cs).2, d.isDigit = true) :
    readInt128 (cs.flatMap String.utf8EncodeChar) = checked (signed (splitSign cs)) := by
  have hfits : least ≤ 0 ∧ 0 ≤ greatest := by decide
  rcases splitSign_cases cs with ⟨ds, rfl, hsplit⟩ | hsplit
  · rw [hsplit] at hne hdigits ⊢
    have hbytes : ('-' :: ds).flatMap String.utf8EncodeChar =
        minusByte :: ds.map fun d => UInt8.ofNat d.toNat := by
      rw [List.flatMap_cons, flatMap_encodeChar_of_digits hdigits]
      rfl
    have hrest : (ds.map fun d => UInt8.ofNat d.toNat).isEmpty = false := by
      rw [List.isEmpty_eq_false_iff, ne_eq, List.map_eq_nil_iff]
      exact hne
    rw [hbytes, readInt128, if_pos (.inr rfl), hrest]
    have hfold := foldlM_push true hdigits 0 hfits
    rw [valueFrom_zero] at hfold
    exact hfold
  · rw [hsplit] at hne hdigits ⊢
    have hfold := foldlM_push false hdigits 0 hfits
    rw [valueFrom_zero] at hfold
    obtain ⟨d, ds, rfl⟩ := List.exists_cons_of_ne_nil hne
    -- A digit is no sign.
    have hd := isDigit_iff.1 (hdigits d (by simp))
    have hbyte : (UInt8.ofNat d.toNat).toNat = d.toNat := by
      rw [UInt8.toNat_ofNat']
      omega
    have hsign : ¬ (UInt8.ofNat d.toNat = plusByte ∨ UInt8.ofNat d.toNat = minusByte) := by
      have hplus : plusByte.toNat = 43 := rfl
      have hminus : minusByte.toNat = 45 := rfl
      rintro (h | h) <;> rw [h] at hbyte <;> omega
    rw [flatMap_encodeChar_of_digits hdigits, List.map_cons, readInt128, if_neg hsign]
    exact hfold

/-! ## Both passes -/

theorem parse_eq_inTwoPasses (text : String) : parse text = parseInTwoPasses text := by
  have hbytes : Utf8.encode text = text.toList.flatMap String.utf8EncodeChar := by
    rw [← toUTF8_ofList, String.ofList_toList]
    rfl
  rw [parse_eq, parseInTwoPasses]
  simp only [hbytes, dropMinus_flatMap_encodeChar, all_isDigitByte, isEmpty_flatMap_encodeChar]
  split
  · rfl
  · rename_i hform
    obtain ⟨hne, hdigits⟩ := digits_checked.1 (Bool.eq_false_iff.2 hform)
    rw [readInt128_of_digits hne hdigits]
    unfold checked
    split <;> rfl

/-! ## Numerals -/

/-- What the digits count for: each one for itself, times ten for each digit
    behind it. -/
def placeValue (ds : List Char) : Nat :=
  ∑ i : Fin ds.length, digitValue ds[i] * 10 ^ (ds.length - 1 - i)

theorem valueFrom_eq (n : Nat) (ds : List Char) :
    valueFrom n ds = n * 10 ^ ds.length + placeValue ds := by
  induction ds generalizing n with
  | nil => simp [valueFrom, placeValue]
  | cons d ds ih =>
    have hplaces : placeValue (d :: ds) = digitValue d * 10 ^ ds.length + placeValue ds := by
      refine (Fin.sum_univ_succ (n := ds.length) _).trans ?_
      refine congrArg₂ (· + ·) (by simp) (Finset.sum_congr rfl fun i _ => ?_)
      have hplace : (d :: ds).length - 1 - (i.succ : Nat) = ds.length - 1 - i := by
        rw [List.length_cons, Fin.val_succ]
        omega
      rw [hplace]
      rfl
    rw [valueFrom_cons, ih, hplaces, List.length_cons, pow_succ]
    ring

theorem valueOf_eq_placeValue (ds : List Char) : valueOf ds = placeValue ds := by
  rw [← valueFrom_zero, valueFrom_eq, Nat.zero_mul, Nat.zero_add]

/-- The text is the integer in base ten, with zeros in front or not. -/
def Denotes (text : String) (n : Int) : Prop :=
  ∃ (negative : Bool) (ds : List Char), text.toList = (if negative then ['-'] else []) ++ ds ∧
    ds ≠ [] ∧ (∀ d ∈ ds, '0' ≤ d ∧ d ≤ '9') ∧ n = (if negative then -1 else 1) * (placeValue ds : Int)

theorem isDigit_iff_between {c : Char} : c.isDigit = true ↔ '0' ≤ c ∧ c ≤ '9' := by
  rw [isDigit_iff, Char.le_def, Char.le_def, UInt32.le_iff_toNat_le, UInt32.le_iff_toNat_le]
  rfl

theorem denotes_iff_numeral {text : String} {n : Int} :
    Denotes text n ↔ Numeral text.toList n := by
  constructor
  · rintro ⟨negative, ds, htext, hne, hbetween, rfl⟩
    have hdigits : ∀ d ∈ ds, d.isDigit = true := fun d hd => isDigit_iff_between.2 (hbetween d hd)
    rw [htext, ← valueOf_eq_placeValue]
    cases negative with
    | false => simpa using Numeral.plain hne hdigits
    | true => simpa using Numeral.negated hne hdigits
  · intro h
    generalize hcs : text.toList = cs at h
    cases h with
    | plain hne hdigits =>
      refine ⟨false, cs, hcs, hne, fun d hd => isDigit_iff_between.1 (hdigits d hd), ?_⟩
      simp [valueOf_eq_placeValue]
    | @negated ds hne hdigits =>
      refine ⟨true, ds, hcs, hne, fun d hd => isDigit_iff_between.1 (hdigits d hd), ?_⟩
      simp [valueOf_eq_placeValue]

end Decimal

/-! ## Decimal integers -/

namespace Check

open Decimal

/-- A text is read as the 128-bit integer that it denotes.  It is refused for
    its form if it denotes no integer, and for the range if it denotes one of
    more bits; there is no other case.  The text of a 128-bit integer is read as
    this integer, and all this holds of the two passes as well. -/
theorem decimal_exact :
    (∀ text n, decimal text = .ok n ↔ Denotes text n ∧ -2 ^ 127 ≤ n ∧ n ≤ 2 ^ 127 - 1) ∧
    (∀ text, (¬ ∃ n, Denotes text n) →
      decimal text = .error (.validation (.decimal (.notDecimal text)))) ∧
    (∀ text n, Denotes text n → ¬ (-2 ^ 127 ≤ n ∧ n ≤ 2 ^ 127 - 1) →
      decimal text = .error (.validation (.decimal (.outOfRange text)))) ∧
    (∀ n, -2 ^ 127 ≤ n → n ≤ 2 ^ 127 - 1 → decimal (render n) = .ok n) ∧
    ∀ text, decimal text =
      (parseInTwoPasses text).mapError fun fault => .validation (.decimal fault) := by
  simp only [decimal, denotes_iff_numeral, ← least_eq, ← greatest_eq]
  refine ⟨fun text n => ?_, fun text h => ?_, fun text n hn h => ?_, fun n hlow hhigh => ?_,
    fun text => ?_⟩
  · rw [Except.mapError_eq_ok, parse_eq_ok]
  · rcases parse_cases text with ⟨-, hparse⟩ | ⟨n, hn, -⟩
    · rw [hparse]
      rfl
    · exact absurd ⟨n, hn⟩ h
  · rcases parse_cases text with ⟨hnone, -⟩ | ⟨m, hm, hparse⟩
    · exact absurd ⟨n, hn⟩ hnone
    · rw [hm.unique hn, if_neg h] at hparse
      rw [hparse]
      rfl
  · rw [Except.mapError_eq_ok]
    exact parse_render hlow hhigh
  · rw [parse_eq_inTwoPasses]

/-- The ends of the range differ by one, zeros in front do not count, and a
    digit of another script is none. -/
theorem decimal_exact_ends :
    decimal "-170141183460469231731687303715884105728" = .ok (-2 ^ 127) ∧
    decimal "170141183460469231731687303715884105728" = .error (.validation (.decimal
      (.outOfRange "170141183460469231731687303715884105728"))) ∧
    decimal "-007" = .ok (-7) ∧
    decimal "\u0663" = .error (.validation (.decimal (.notDecimal "\u0663"))) := by
  have hleast : render (-2 ^ 127) = "-170141183460469231731687303715884105728" := by cbv
  refine ⟨?_, ?_, ?_, ?_⟩
  · rw [← hleast]
    exact decimal_exact.2.2.2.1 (-2 ^ 127) (by decide) (by decide)
  · refine decimal_exact.2.2.1 _ (2 ^ 127) (denotes_iff_numeral.2 ?_) (by decide)
    exact numeral_iff_checked.2 ⟨by cbv, by cbv⟩
  · refine (decimal_exact.1 _ _).2 ⟨denotes_iff_numeral.2 ?_, by decide, by decide⟩
    exact numeral_iff_checked.2 ⟨by cbv, by cbv⟩
  · refine decimal_exact.2.1 _ ?_
    rintro ⟨n, hn⟩
    have hform := (numeral_iff_checked.1 (denotes_iff_numeral.1 hn)).1
    rw [show ((splitSign "\u0663".toList).2.isEmpty || !(splitSign "\u0663".toList).2.all Char.isDigit) =
      true by cbv] at hform
    cases hform

end Check

end ChainCodec
