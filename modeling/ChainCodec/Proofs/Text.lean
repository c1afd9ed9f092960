import ChainCodec.Proofs.Sequence
import ChainCodec.Text.Base58
import ChainCodec.Text.Decimal
import ChainCodec.Text.Hex
import Mathlib.Data.List.Induction
import Mathlib.Data.List.TakeWhile

/-! # Written text is read back

    Decimal, hexadecimal and base58 text are digit strings, and reading one
    that was written gives back what it was written for.  Each proof has the
    same two halves: the digits are read as the digits that were written, and
    the digits denote the number.

    The three formats look at their text in two ways.  Decimal reads
    characters; hexadecimal and base58 read bytes, which for ASCII characters
    is the same. -/

namespace ChainCodec

/-! ## Digits -/

namespace Radix

theorem digits_lt {base : Nat} (hbase : 1 < base) (n : Nat) : ∀ d ∈ digits base n, d < base := by
  -- The digits of n are those of the smaller n / base, and a remainder.
  induction n using Nat.strongRecOn with
  | ind n ih =>
    intro d hd
    by_cases hn : n = 0
    · rw [hn, digits_zero] at hd
      cases hd
    · have hdiv : n / base < n := Nat.div_lt_self (by omega) hbase
      rw [digits_of_pos hbase (by omega)] at hd
      rcases List.mem_append.1 hd with hd | hd
      · exact ih _ hdiv d hd
      · rw [List.mem_singleton.1 hd]
        exact Nat.mod_lt _ (by omega)

/-- The digits of a number start with no zero. -/
theorem head?_digits_ne_zero {base : Nat} (hbase : 1 < base) (n : Nat) :
    (digits base n).head? ≠ some 0 := by
  induction n using Nat.strongRecOn with
  | ind n ih =>
    by_cases hn : n = 0
    · simp [hn]
    · have hdiv : n / base < n := Nat.div_lt_self (by omega) hbase
      rw [digits_of_pos hbase (by omega)]
      -- A number below the base is its only digit; of others the first digit
      -- is that of the quotient.
      by_cases hq : n / base = 0
      · have hlt : n < base := (Nat.div_eq_zero_iff_lt (by omega)).1 hq
        simp [hq, Nat.mod_eq_of_lt hlt, hn]
      · have hne : digits base (n / base) ≠ [] := by
          rw [digits_of_pos hbase (Nat.pos_of_ne_zero hq)]
          simp
        rw [List.head?_append_of_ne_nil _ hne]
        exact ih _ hdiv

/-- Digits without a leading zero are those of the number they denote. -/
theorem digits_ofDigits {base : Nat} (hbase : 1 < base) {ds : List Nat}
    (hlt : ∀ d ∈ ds, d < base) (hhead : ds.head? ≠ some 0) :
    digits base (ofDigits base ds) = ds := by
  -- From the right: the last digit is the remainder, the others the quotient.
  induction ds using List.reverseRecOn with
  | nil => rfl
  | append_singleton ds d ih =>
    have hd : d < base := hlt d (by simp)
    -- Zero would have no digits: either d is the leading digit, or the rest
    -- denotes a positive number.
    have hpos : 0 < ofDigits base (ds ++ [d]) := by
      rw [ofDigits_append_singleton]
      by_cases hds : ds = []
      · subst hds
        simp only [List.nil_append, List.head?_cons, ne_eq, Option.some.injEq] at hhead
        omega
      · have hrest : digits base (ofDigits base ds) = ds :=
          ih (fun e he => hlt e (by simp [he]))
            (by rwa [List.head?_append_of_ne_nil _ hds] at hhead)
        have hne : ofDigits base ds ≠ 0 := by
          intro h0
          rw [h0, digits_zero] at hrest
          exact hds hrest.symm
        have := Nat.mul_pos (show 0 < base by omega) (Nat.pos_of_ne_zero hne)
        omega
    rw [digits_of_pos hbase hpos, ofDigits_append_singleton,
      Nat.mul_add_div (by omega), Nat.mul_add_mod, Nat.div_eq_of_lt hd, Nat.mod_eq_of_lt hd,
      Nat.add_zero]
    by_cases hds : ds = []
    · simp [hds]
    · rw [ih (fun e he => hlt e (by simp [he]))
        (by rwa [List.head?_append_of_ne_nil _ hds] at hhead)]

theorem ofDigits_append_zeros (base : Nat) (zs ds : List Nat) (h : ∀ z ∈ zs, z = 0) :
    ofDigits base (zs ++ ds) = ofDigits base ds := by
  have hzs : ofDigits base zs = 0 := by
    induction zs with
    | nil => rfl
    | cons z zs ih =>
      obtain rfl : z = 0 := h z (by simp)
      simpa [ofDigits] using ih fun w hw => h w (by simp [hw])
  simp only [ofDigits, List.foldl_append] at hzs ⊢
  rw [hzs]

end Radix

/-! ## Decimal text -/

namespace Decimal

theorem digitValue_digitChar {d : Nat} (h : d < 10) : digitValue (Nat.digitChar d) = d :=
  Nat.toNat_digitChar_sub_48_of_lt_ten h

theorem valueOf_map_digitChar {ds : List Nat} (h : ∀ d ∈ ds, d < 10) :
    valueOf (ds.map Nat.digitChar) = Radix.ofDigits 10 ds := by
  have hmap : (ds.map Nat.digitChar).map digitValue = ds := by
    rw [List.map_map]
    exact (List.map_congr_left fun d hd => digitValue_digitChar (h d hd)).trans (List.map_id ds)
  rw [valueOf, hmap]

theorem renderNat_ne_nil (n : Nat) : renderNat n ≠ [] := by
  unfold renderNat
  split
  · simp
  · rw [Radix.digits_of_pos (by decide) (by omega)]
    simp

/-- The digits by their numbers. -/
theorem isDigit_iff {c : Char} : c.isDigit = true ↔ 48 ≤ c.toNat ∧ c.toNat ≤ 57 :=
  Char.isDigit_iff_toNat

theorem isDigit_of_mem_renderNat {n : Nat} {c : Char} (h : c ∈ renderNat n) : c.isDigit = true := by
  unfold renderNat at h
  split at h
  · rw [List.mem_singleton.1 h]
    rfl
  · obtain ⟨d, hd, rfl⟩ := List.mem_map.1 h
    rw [Nat.isDigit_digitChar]
    simpa using Radix.digits_lt (by decide) n d hd

theorem valueOf_renderNat (n : Nat) : valueOf (renderNat n) = n := by
  unfold renderNat
  split
  · rename_i hn
    rw [hn]
    rfl
  · rw [valueOf_map_digitChar (Radix.digits_lt (by decide) n),
      Radix.ofDigits_digits (by decide)]

theorem not_minus_mem_renderNat (n : Nat) : '-' ∉ renderNat n := by
  intro h
  have := isDigit_of_mem_renderNat h
  cases this

theorem splitSign_of_not_minus {cs : List Char} (h : '-' ∉ cs) : splitSign cs = (false, cs) := by
  unfold splitSign
  split
  · simp at h
  · rfl

/-- Integers of 128 bits are read as they were written. -/
theorem parse_render {n : Int} (hlow : least ≤ n) (hhigh : n ≤ greatest) :
    parse (render n) = .ok n := by
  -- The check for something that is not a digit passes.
  have hdigits :
      ((renderNat n.natAbs).isEmpty || !(renderNat n.natAbs).all Char.isDigit) = false := by
    have hall : (renderNat n.natAbs).all Char.isDigit = true :=
      List.all_eq_true.2 fun c hc => isDigit_of_mem_renderNat hc
    simp [hall, renderNat_ne_nil]
  unfold parse render
  -- The sign of n decides whether a minus was written.
  by_cases hn : n < 0
  · have habs : -(n.natAbs : Int) = n := by omega
    simp only [hn, if_true, String.toList_ofList, splitSign, hdigits, valueOf_renderNat, habs]
    simp [hlow, hhigh]
  · have habs : (n.natAbs : Int) = n := by omega
    simp only [hn, if_false, String.toList_ofList,
      splitSign_of_not_minus (not_minus_mem_renderNat _), hdigits, valueOf_renderNat, habs]
    simp [hlow, hhigh]

theorem toList_render_of_nonneg {n : Int} (h : 0 ≤ n) :
    (render n).toList = renderNat n.natAbs := by
  rw [render, if_neg (by omega), String.toList_ofList]

end Decimal

/-! ## ASCII -/

theorem toUTF8_ofList (cs : List Char) :
    (String.ofList cs).toUTF8.data.toList = cs.flatMap String.utf8EncodeChar := by
  rw [String.toUTF8_eq_toByteArray, String.toByteArray_ofList, List.utf8Encode,
    List.toList_data_toByteArray]

/-- A character below 128 is one byte, its own number. -/
theorem utf8EncodeChar_ascii {c : Char} (h : c.toNat < 128) :
    String.utf8EncodeChar c = [UInt8.ofNat c.toNat] := by
  refine String.utf8EncodeChar_eq_singleton ?_
  rw [Char.utf8Size_eq_one_iff, UInt32.le_iff_toNat_le]
  exact Nat.le_of_lt_succ h

theorem flatMap_utf8EncodeChar_ascii {cs : List Char} (h : ∀ c ∈ cs, c.toNat < 128) :
    cs.flatMap String.utf8EncodeChar = cs.map fun c => UInt8.ofNat c.toNat := by
  rw [List.map_eq_flatMap]
  exact List.flatMap_congr fun c hc => utf8EncodeChar_ascii (h c hc)

theorem toUTF8_ofList_ascii {cs : List Char} (h : ∀ c ∈ cs, c.toNat < 128) :
    (String.ofList cs).toUTF8.data.toList = cs.map fun c => UInt8.ofNat c.toNat := by
  rw [toUTF8_ofList, flatMap_utf8EncodeChar_ascii h]

/-! ## Hexadecimal text -/

namespace Hex

theorem toNat_hexDigit_lt : ∀ n < 16, (Text.hexDigit n).toNat < 128 := by decide

theorem digitValue?_hexDigit :
    ∀ n < 16, digitValue? (UInt8.ofNat (Text.hexDigit n).toNat) = some (UInt8.ofNat n) := by
  decide

theorem digitAt_hexDigit (position : Nat) {n : Nat} (h : n < 16) :
    digitAt position (UInt8.ofNat (Text.hexDigit n).toNat) = .ok (UInt8.ofNat n) := by
  simp only [digitAt, digitValue?_hexDigit n h]

/-- The bytes of the text. -/
def encodeBytes (bs : Bytes) : Bytes :=
  (encodeChars bs).map fun c => UInt8.ofNat c.toNat

theorem high_lt (b : UInt8) : b.toNat / 16 < 16 := by
  have := b.toNat_lt
  omega

theorem low_lt (b : UInt8) : b.toNat % 16 < 16 := Nat.mod_lt _ (by decide)

theorem toUTF8_encode (bs : Bytes) : (encode bs).toUTF8.data.toList = encodeBytes bs := by
  refine toUTF8_ofList_ascii fun c hc => ?_
  obtain ⟨b, _, hc⟩ := List.mem_flatMap.1 hc
  simp only [List.mem_cons, List.not_mem_nil, or_false] at hc
  rcases hc with rfl | rfl
  · exact toNat_hexDigit_lt _ (high_lt b)
  · exact toNat_hexDigit_lt _ (low_lt b)

theorem length_encodeBytes (bs : Bytes) : (encodeBytes bs).length = 2 * bs.length := by
  induction bs with
  | nil => rfl
  | cons b bs ih =>
    simp only [encodeBytes, encodeChars, List.flatMap_cons, List.map_append, List.length_append,
      List.map_cons, List.map_nil, List.length_cons, List.length_nil] at ih ⊢
    omega

theorem join_digits (b : UInt8) :
    UInt8.ofNat (b.toNat / 16) * 16 + UInt8.ofNat (b.toNat % 16) = b := by
  have := b.toNat_lt
  apply UInt8.toNat_inj.1
  simp only [UInt8.toNat_add, UInt8.toNat_mul, UInt8.toNat_ofNat', UInt8.reduceToNat]
  omega

/-- Each byte is read back from its two digits. -/
theorem decodeFrom_encodeBytes (position : Nat) (bs : Bytes) :
    decodeFrom position (encodeBytes bs) = .ok bs := by
  -- Two digits make a byte, whatever the position that errors would name.
  induction bs generalizing position with
  | nil => rfl
  | cons b bs ih =>
    have hcons : encodeBytes (b :: bs) =
        UInt8.ofNat (Text.hexDigit (b.toNat / 16)).toNat ::
          UInt8.ofNat (Text.hexDigit (b.toNat % 16)).toNat :: encodeBytes bs := rfl
    rw [hcons, decodeFrom, digitAt_hexDigit _ (high_lt b), digitAt_hexDigit _ (low_lt b), ih]
    exact congrArg (fun b' => Except.ok (b' :: bs)) (join_digits b)

theorem decode_encode (bs : Bytes) : decode (encode bs) = .ok bs := by
  have heven : ¬ (encodeBytes bs).length % 2 = 1 := by
    rw [length_encodeBytes]
    omega
  simp only [decode, toUTF8_encode, heven, if_false, decodeFrom_encodeBytes]

end Hex

/-! ## Base58 text -/

namespace Base58

/-- Changing the base and changing it back keeps the digits and the leading
    zeros. -/
theorem rebase_rebase {source target : Nat} (hsource : 1 < source) (htarget : 1 < target)
    {ds : List Nat} (hlt : ∀ d ∈ ds, d < source) :
    rebase target source (rebase source target ds) = ds := by
  -- Leading zeros are split off: they do not count for the number.
  have hzero : ∀ z ∈ ds.takeWhile (· == 0), z = 0 := fun z hz => by
    simpa using List.mem_takeWhile_imp hz
  have hsplit : ds.takeWhile (· == 0) ++ ds.dropWhile (· == 0) = ds :=
    List.takeWhile_append_dropWhile
  have hvalue : Radix.ofDigits source ds = Radix.ofDigits source (ds.dropWhile (· == 0)) := by
    conv_lhs => rw [← hsplit]
    exact Radix.ofDigits_append_zeros source _ _ hzero
  -- What is left has no leading zero, so it is the digits of its number.
  have hrest : Radix.digits source (Radix.ofDigits source ds) = ds.dropWhile (· == 0) := by
    rw [hvalue]
    refine Radix.digits_ofDigits hsource (fun d hd => ?_) fun h0 => ?_
    · exact hlt d ((List.dropWhile_suffix _).subset hd)
    · have := List.head?_dropWhile_not (· == 0) ds
      rw [h0] at this
      simp at this
  -- The digits in the other base start with no zero either, so as many
  -- leading zeros are split off on the way back.
  have hlead : (rebase source target ds).takeWhile (· == 0) = ds.takeWhile (· == 0) := by
    rw [rebase, List.takeWhile_append_of_pos fun z hz => by simp [hzero z hz]]
    have hhead := Radix.head?_digits_ne_zero htarget (Radix.ofDigits source ds)
    cases hd : Radix.digits target (Radix.ofDigits source ds) with
    | nil => simp
    | cons d rest =>
      rw [hd] at hhead
      simp only [List.head?_cons, ne_eq, Option.some.injEq] at hhead
      simp [hhead]
  calc rebase target source (rebase source target ds)
      = ds.takeWhile (· == 0) ++
          Radix.digits source (Radix.ofDigits target (rebase source target ds)) := by
        rw [rebase, hlead]
    _ = ds.takeWhile (· == 0) ++ Radix.digits source (Radix.ofDigits source ds) := by
        rw [rebase, Radix.ofDigits_append_zeros _ _ _ hzero, Radix.ofDigits_digits htarget]
    _ = ds := by rw [hrest, hsplit]

theorem mem_rebase_lt {source target : Nat} (htarget : 1 < target) {ds : List Nat} {d : Nat}
    (h : d ∈ rebase source target ds) : d < target := by
  rcases List.mem_append.1 h with h | h
  · have : d = 0 := by simpa using List.mem_takeWhile_imp h
    omega
  · exact Radix.digits_lt htarget _ d h

theorem toNat_alphabet_lt : ∀ d < 58, (alphabet.getD d '1').toNat < 128 := by
  decide +kernel

theorem idxOf?_alphabet :
    ∀ d < 58, alphabet.idxOf? (Char.ofNat (UInt8.ofNat (alphabet.getD d '1').toNat).toNat) =
      some d := by
  decide +kernel

theorem digitAt_alphabet (index : Nat) {d : Nat} (h : d < 58) :
    digitAt index (UInt8.ofNat (alphabet.getD d '1').toNat) = .ok d := by
  have hascii : ¬ 0x80 ≤ UInt8.ofNat (alphabet.getD d '1').toNat := by
    have := toNat_alphabet_lt d h
    rw [UInt8.le_iff_toNat_le, UInt8.toNat_ofNat']
    change ¬ 128 ≤ _
    omega
  simp only [digitAt, hascii, if_false, idxOf?_alphabet d h]

theorem digitsFrom_alphabet (index : Nat) {ds : List Nat} (h : ∀ d ∈ ds, d < 58) :
    digitsFrom index (ds.map fun d => UInt8.ofNat (alphabet.getD d '1').toNat) = .ok ds := by
  induction ds generalizing index with
  | nil => rfl
  | cons d ds ih =>
    rw [List.map_cons, digitsFrom, digitAt_alphabet index (h d (by simp)),
      ih _ fun e he => h e (by simp [he])]
    rfl

theorem decode_encode (bs : Bytes) : decode (encode bs) = .ok bs := by
  have hlt : ∀ d ∈ rebase 256 58 (bs.map UInt8.toNat), d < 58 := fun d hd =>
    mem_rebase_lt (by decide) hd
  -- The text is ASCII, so its bytes are read as the characters written.
  have hutf8 : (encode bs).toUTF8.data.toList =
      (rebase 256 58 (bs.map UInt8.toNat)).map fun d =>
        UInt8.ofNat (alphabet.getD d '1').toNat := by
    rw [encode, toUTF8_ofList_ascii, List.map_map]
    · rfl
    · intro c hc
      obtain ⟨d, hd, rfl⟩ := List.mem_map.1 hc
      exact toNat_alphabet_lt d (hlt d hd)
  have hback : (rebase 58 256 (rebase 256 58 (bs.map UInt8.toNat))).map UInt8.ofNat = bs := by
    rw [rebase_rebase (by decide) (by decide), List.map_map]
    · exact (List.map_congr_left fun b _ => UInt8.ofNat_toNat).trans (List.map_id bs)
    · intro d hd
      obtain ⟨b, _, rfl⟩ := List.mem_map.1 hd
      exact b.toNat_lt
  rw [decode, hutf8, digitsFrom_alphabet 0 hlt]
  exact congrArg Except.ok hback

end Base58

end ChainCodec
