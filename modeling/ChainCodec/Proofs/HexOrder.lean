import ChainCodec.Proofs.Order
import ChainCodec.Proofs.Text

/-! # Canonical order by hexadecimal texts

    The entries of a set or a map are put in the order of their bytes.  A chain
    may as well sort the hexadecimal texts of these bytes: every byte has two
    digits, the high one first, and the digits have the order of their values,
    so texts compare as the bytes do.  This holds for byte strings of different
    lengths as well, where one may be the start of the other.

    `sortUnique_canonical` says all of what sorting gives: which order that is,
    what is reported where keys are repeated, and that neither depends on the
    order in which the entries were given. -/

namespace ChainCodec

/-! ## Texts compare as the bytes -/

namespace Hex

theorem hexDigit_lt_hexDigit :
    ∀ m < 16, ∀ n < 16, (Text.hexDigit m < Text.hexDigit n ↔ m < n) := by
  decide

theorem hexDigit_inj : ∀ m < 16, ∀ n < 16, (Text.hexDigit m = Text.hexDigit n ↔ m = n) := by
  decide

theorem encodeChars_cons (b : UInt8) (bs : Bytes) :
    encodeChars (b :: bs) =
      Text.hexDigit (b.toNat / 16) :: Text.hexDigit (b.toNat % 16) :: encodeChars bs := rfl

/-- The first byte that differs has the first digit that differs. -/
theorem encodeChars_lt_encodeChars {as bs : Bytes} :
    encodeChars as < encodeChars bs ↔ as < bs := by
  induction as generalizing bs with
  | nil =>
    cases bs with
    | nil => simp [encodeChars]
    | cons b bs => simp [encodeChars_cons, show encodeChars [] = [] from rfl]
  | cons a as ih =>
    cases bs with
    | nil => simp [encodeChars_cons, show encodeChars [] = [] from rfl]
    | cons b bs =>
      have hhigh := hexDigit_lt_hexDigit _ (high_lt a) _ (high_lt b)
      have hhigh' := hexDigit_inj _ (high_lt a) _ (high_lt b)
      have hlow := hexDigit_lt_hexDigit _ (low_lt a) _ (low_lt b)
      have hlow' := hexDigit_inj _ (low_lt a) _ (low_lt b)
      rw [encodeChars_cons, encodeChars_cons, List.cons_lt_cons_iff, List.cons_lt_cons_iff,
        List.cons_lt_cons_iff, hhigh, hhigh', hlow, hlow', ih, UInt8.lt_iff_toNat_lt,
        ← UInt8.toNat_inj]
      -- A byte is its two digits, whatever the order of what comes behind it.
      by_cases hrest : as < bs <;> simp only [hrest, and_true, and_false, or_false] <;> omega

theorem encode_lt_encode {as bs : Bytes} : encode as < encode bs ↔ as < bs := by
  rw [String.lt_iff, encode, encode, String.toList_ofList, String.toList_ofList]
  exact encodeChars_lt_encodeChars

theorem encode_le_encode {as bs : Bytes} : encode as ≤ encode bs ↔ as ≤ bs := by
  rw [← String.not_lt, ← List.not_lt, encode_lt_encode]

end Hex

/-! ## Sorting by either -/

namespace Order

theorem le_eq_hexLe : le = fun a b => decide (Hex.encode a.1 ≤ Hex.encode b.1) := by
  funext a b
  unfold le
  rw [decide_eq_decide]
  exact Hex.encode_le_encode.symm

theorem sort_eq_sort_by_hex (entries : List Entry) :
    sort entries = entries.mergeSort fun a b => decide (Hex.encode a.1 ≤ Hex.encode b.1) := by
  unfold sort
  rw [le_eq_hexLe]

/-! ## What sorting gives -/

/-- Sorting for a caller that makes its error from the hexadecimal text of the
    repeated key. -/
def sortUniqueOr {ε : Type} (onDuplicate : String → ε) (entries : List Entry) :
    Except ε (List Value) :=
  (sortUnique entries).mapError fun bs => onDuplicate (Hex.encode bs)

/-- If no key is repeated, the values are given in the one order in which the
    keys ascend strictly, and the entries are in this order if they are sorted by
    the hexadecimal texts of the keys.  If keys are repeated, the error is made
    from the text of the least of them.  Either way the order in which the entries
    are given makes no difference. -/
theorem sortUnique_canonical {ε : Type} (onDuplicate : String → ε) (entries : List Entry) :
    ((entries.map Prod.fst).Nodup → ∃ sorted : List Entry,
      sortUniqueOr onDuplicate entries = .ok (sorted.map Prod.snd) ∧ sorted.Perm entries ∧
      Ascending (sorted.map Prod.fst) ∧
      (∀ other : List Entry, other.Perm entries → Ascending (other.map Prod.fst) →
        other = sorted) ∧
      sorted = entries.mergeSort fun a b => decide (Hex.encode a.1 ≤ Hex.encode b.1)) ∧
    (¬ (entries.map Prod.fst).Nodup → ∃ bs, LeastRepeated bs (entries.map Prod.fst) ∧
      sortUniqueOr onDuplicate entries = .error (onDuplicate (Hex.encode bs))) ∧
    ∀ other : List Entry, other.Perm entries →
      sortUniqueOr onDuplicate other = sortUniqueOr onDuplicate entries := by
  refine ⟨fun h => ?_, fun h => ?_, fun other hother => ?_⟩
  · obtain ⟨hok, hascending⟩ := sortUnique_of_nodup h
    refine ⟨sort entries, ?_, sort_perm entries, hascending, fun other hother hother' => ?_,
      sort_eq_sort_by_hex entries⟩
    · unfold sortUniqueOr
      rw [hok]
      rfl
    · exact eq_of_ascending (hother.trans (sort_perm entries).symm) hother' hascending
  · cases hs : sortUnique entries with
    | ok values => exact absurd (sortUnique_eq_ok_iff.1 hs).1 h
    | error bs =>
      refine ⟨bs, leastRepeated_of_sortUnique hs, ?_⟩
      unfold sortUniqueOr
      rw [hs]
      rfl
  · unfold sortUniqueOr
    rw [sortUnique_perm hother]

/-- A key that goes on where another one stops comes after it. -/
theorem sortUnique_canonical_threeKeys :
    sortUniqueOr id [([2], .int 2), ([1, 255], .int 511), ([1], .int 1)] =
      .ok [.int 1, .int 511, .int 2] ∧
    sortUniqueOr id [([1], .int 1), ([1], .str "1")] = .error "01" := by
  constructor
  · obtain ⟨sorted, hok, -, -, hunique, -⟩ :=
      (sortUnique_canonical id [([2], .int 2), ([1, 255], .int 511), ([1], .int 1)]).1 (by decide)
    have hperm := List.reverse_perm
      ([([2], .int 2), ([1, 255], .int 511), ([1], .int 1)] : List Entry)
    have hsorted := hunique [([1], .int 1), ([1, 255], .int 511), ([2], .int 2)] hperm
      (by unfold Ascending; decide)
    rw [hok, ← hsorted]
    rfl
  · obtain ⟨bs, hleast, herror⟩ :=
      (sortUnique_canonical id [([1], .int 1), ([1], .str "1")]).2.1 (by decide)
    obtain rfl : bs = [1] := by
      have hmem := List.count_pos_iff.1 (Nat.lt_trans Nat.zero_lt_one hleast.1)
      simpa using hmem
    rw [herror]
    rfl

end Order

end ChainCodec
