/-! # Bytes

    Byte strings and the two fixed-width ways of writing a number into them.
    Everything on the wire is little-endian; digests are big-endian.

    A byte string is a plain list, so that appending, slicing and comparing
    are the list operations of the core library.

    Core Lean 4 only; no Mathlib. -/

namespace ChainCodec

abbrev Bytes : Type := List UInt8

/-! ## Little-endian numbers -/

namespace LittleEndian

/-- The `width` low bytes of `n`, lowest first. -/
def encode : (width : Nat) → (n : Nat) → Bytes
  | 0, _ => []
  | w + 1, n => UInt8.ofNat n :: encode w (n / 256)

/-- The number whose bytes are given lowest first. -/
def decode : Bytes → Nat
  | [] => 0
  | b :: bs => b.toNat + 256 * decode bs

/-- How many numbers have `width` bytes. -/
def capacity : (width : Nat) → Nat
  | 0 => 1
  | w + 1 => 256 * capacity w

@[simp] theorem length_encode (w n : Nat) : (encode w n).length = w := by
  induction w generalizing n with
  | zero => rfl
  | succ w ih => simp [encode, ih]

theorem decode_encode (w n : Nat) : decode (encode w n) = n % capacity w := by
  induction w generalizing n with
  | zero => simp [encode, decode, capacity, Nat.mod_one]
  | succ w ih =>
    have hb : (UInt8.ofNat n).toNat = n % 256 := by simp
    rw [encode, decode, ih, hb, capacity, Nat.mod_mul]

theorem encode_decode (bs : Bytes) : encode bs.length (decode bs) = bs := by
  induction bs with
  | nil => rfl
  | cons b bs ih =>
    have hb := b.toNat_lt
    have hq : (b.toNat + 256 * decode bs) / 256 = decode bs := by omega
    have hr : UInt8.ofNat (b.toNat + 256 * decode bs) = b := by
      apply UInt8.toNat_inj.mp
      simp only [UInt8.toNat_ofNat']
      omega
    simp only [List.length_cons, encode, decode, hq, hr, ih]

theorem decode_lt (bs : Bytes) : decode bs < capacity bs.length := by
  induction bs with
  | nil => simp [decode, capacity]
  | cons b bs ih =>
    have hb := b.toNat_lt
    simp only [decode, List.length_cons, capacity]
    omega

end LittleEndian

/-! ## Big-endian numbers -/

namespace BigEndian

/-- The `width` low bytes of `n`, highest first. -/
def encode (width n : Nat) : Bytes := (LittleEndian.encode width n).reverse

/-- The number whose bytes are given highest first. -/
def decode (bs : Bytes) : Nat := bs.foldl (fun n b => 256 * n + b.toNat) 0

@[simp] theorem length_encode (w n : Nat) : (encode w n).length = w := by
  simp [encode]

end BigEndian

/-- Cuts a list into pieces of `size`; a shorter rest is dropped. -/
def blocks {α : Type} (size : Nat) : (count : Nat) → List α → List (List α)
  | 0, _ => []
  | count + 1, xs => xs.take size :: blocks size count (xs.drop size)

end ChainCodec
