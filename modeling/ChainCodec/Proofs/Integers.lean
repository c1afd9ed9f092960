import ChainCodec.Codec
import ChainCodec.Text.Decimal

/-! # Fixed-width integers

    The values of an integer type are told apart by their low bits, and fit
    64 bits, signed or unsigned. -/

namespace ChainCodec.IntType

variable {t : IntType} {n : Int}

theorem sizes : UInt8.size = 256 ∧ UInt16.size = 65536 ∧ UInt32.size = 4294967296 ∧
    UInt64.size = 18446744073709551616 := ⟨rfl, rfl, rfl, rfl⟩

theorem least_ge (t : IntType) : -9223372036854775808 ≤ t.least := by
  obtain ⟨signed, width⟩ := t
  cases signed <;> cases width <;> decide

theorem greatest_lt (t : IntType) : t.greatest < 18446744073709551616 := by
  obtain ⟨signed, width⟩ := t
  cases signed <;> cases width <;> decide

/-- The values of every integer type fit 64 bits, signed or unsigned. -/
theorem bounds (hlow : t.least ≤ n) (hhigh : n ≤ t.greatest) :
    -9223372036854775808 ≤ n ∧ n < 18446744073709551616 :=
  ⟨Int.le_trans t.least_ge hlow, Int.lt_of_le_of_lt hhigh t.greatest_lt⟩

theorem decimal_bounds (hlow : t.least ≤ n) (hhigh : n ≤ t.greatest) :
    Decimal.least ≤ n ∧ n ≤ Decimal.greatest := by
  have hleast : Decimal.least ≤ -9223372036854775808 := by decide
  have hgreatest : 18446744073709551616 ≤ Decimal.greatest := by decide
  have := bounds hlow hhigh
  omega

/-- Values of the type have the same low bits as themselves only. -/
theorem wrap_of_bounds (hlow : t.least ≤ n) (hhigh : n ≤ t.greatest) : t.wrap n = n := by
  obtain ⟨signed, width⟩ := t
  unfold wrap
  -- With the width known, the sizes are numbers.
  cases signed <;> cases width <;>
    simp only [least, greatest, size, IntWidth.size, sizes, if_true, if_false,
      Bool.false_eq_true] at hlow hhigh ⊢ <;> split <;> omega

theorem wrap_bounds (t : IntType) (n : Int) : t.least ≤ t.wrap n ∧ t.wrap n ≤ t.greatest := by
  obtain ⟨signed, width⟩ := t
  unfold wrap
  cases signed <;> cases width <;>
    simp only [least, greatest, size, IntWidth.size, sizes, if_true, if_false,
      Bool.false_eq_true] <;> split <;> omega

theorem size_pos (t : IntType) : 0 < t.size := by
  unfold size
  cases t.width <;> decide

theorem toBits_lt (t : IntType) (n : Int) : t.toBits n < t.size := by
  have hpos : (0 : Int) < t.size := Int.natCast_pos.2 t.size_pos
  have hlt := Int.emod_lt_of_pos n hpos
  have hnonneg := Int.emod_nonneg n (Int.ne_of_gt hpos)
  unfold toBits
  omega

/-- A number has the same low bits as its bit pattern. -/
theorem wrap_toBits (t : IntType) (n : Int) : t.wrap (t.toBits n) = t.wrap n := by
  have hpos : (0 : Int) < t.size := Int.natCast_pos.2 t.size_pos
  have hcast : ((t.toBits n : Nat) : Int) = n % t.size :=
    Int.toNat_of_nonneg (Int.emod_nonneg n (Int.ne_of_gt hpos))
  simp only [wrap, hcast, Int.emod_emod]

/-- The bytes of a value of the type are those of no other value. -/
theorem wrap_decode_encode (hlow : t.least ≤ n) (hhigh : n ≤ t.greatest) :
    t.wrap (LittleEndian.decode (LittleEndian.encode t.width.bytes (t.toBits n))) = n := by
  have hlt : t.toBits n < LittleEndian.capacity t.width.bytes := by
    rw [IntWidth.capacity_bytes]
    exact t.toBits_lt n
  rw [LittleEndian.decode_encode, Nat.mod_eq_of_lt hlt, wrap_toBits, wrap_of_bounds hlow hhigh]

end ChainCodec.IntType
