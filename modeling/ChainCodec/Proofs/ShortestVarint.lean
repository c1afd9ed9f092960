import ChainCodec.Proofs.Reading.Turns
import ChainCodec.Proofs.Varint
import Mathlib

/-! # Variable-length integers in their shortest form

    `Form` says byte by byte what a variable-length integer looks like: the
    number is a sum of groups of seven bits, and a high bit says that one more
    group follows.  Reading takes the forms of a number, and nothing else.
    Writing gives the form that is no longer than any other, and there is one
    such form only; it has a byte for each digit of the number in base 128.

    A machine has the groups ready in a word and writes up to four of them with
    one store.  `unrolled` is the writing that does so, one branch for each
    number of groups. -/

namespace ChainCodec

namespace Varint

/-! ## Forms -/

/-- The bytes are a form of the number. -/
structure Form (bs : Bytes) (n : Nat) : Prop where
  length_pos : 1 ≤ bs.length
  length_le : bs.length ≤ 5
  continued : ∀ b ∈ bs.dropLast, 128 ≤ b
  ended : ∀ b ∈ bs.getLast?, b < 128
  sum_eq : (bs.mapIdx fun i b => b.toNat % 128 * 128 ^ i).sum = n
  fits : n ≤ 2 ^ 32 - 1

theorem terminated_iff {bs : Bytes} :
    Terminated bs ↔ 1 ≤ bs.length ∧ (∀ b ∈ bs.dropLast, 128 ≤ b) ∧ ∀ b ∈ bs.getLast?, b < 128 := by
  induction bs with
  | nil =>
    constructor
    · intro h
      cases h
    · rintro ⟨h, -⟩
      cases h
  | cons b bs ih =>
    cases bs with
    | nil =>
      constructor
      · intro h
        cases h with
        | last hb => simpa using hb
        | more _ h => cases h
      · rintro ⟨-, -, hlast⟩
        exact .last (hlast b rfl)
    | cons c bs =>
      -- A byte that others follow is not the last one.
      rw [List.dropLast_cons_cons, List.getLast?_cons_cons, List.forall_mem_cons]
      constructor
      · intro h
        cases h with
        | more hb h =>
          obtain ⟨-, hhigh, hlast⟩ := ih.1 h
          exact ⟨Nat.le_add_left 1 _, ⟨UInt8.not_lt.1 hb, hhigh⟩, hlast⟩
      · rintro ⟨-, ⟨hb, hhigh⟩, hlast⟩
        exact .more (UInt8.not_lt.2 hb) (ih.2 ⟨Nat.le_add_left 1 _, hhigh, hlast⟩)

/-- The groups behind the first `e` ones count that much more. -/
theorem sum_groups_from (bs : Bytes) (e : Nat) :
    (bs.mapIdx fun i b => b.toNat % 128 * 128 ^ (e + i)).sum = 128 ^ e * value bs := by
  induction bs generalizing e with
  | nil => rfl
  | cons b bs ih =>
    have hrest : (bs.mapIdx fun i b => b.toNat % 128 * 128 ^ (e + (i + 1))).sum =
        128 ^ (e + 1) * value bs := by
      rw [← ih (e + 1)]
      simp only [Nat.add_assoc, Nat.add_comm 1]
    rw [List.mapIdx_cons, List.sum_cons, hrest, value]
    ring

theorem sum_groups (bs : Bytes) :
    (bs.mapIdx fun i b => b.toNat % 128 * 128 ^ i).sum = value bs := by
  have h := sum_groups_from bs 0
  simpa using h

theorem form_iff_spells {bs : Bytes} {n : UInt32} : Form bs n.toNat ↔ Spells n bs := by
  constructor
  · intro h
    refine ⟨terminated_iff.2 ⟨h.length_pos, h.continued, h.ended⟩, h.length_le, ?_⟩
    rw [← sum_groups, h.sum_eq]
  · intro h
    obtain ⟨hpos, hhigh, hlast⟩ := terminated_iff.1 h.terminated
    have hn := n.toNat_lt
    exact ⟨hpos, h.length_le, hhigh, hlast, by rw [sum_groups, h.value_eq], by omega⟩

/-- Of one length there is one form of a number. -/
theorem Terminated.eq_of_value_eq {as bs : Bytes} (has : Terminated as) (hbs : Terminated bs)
    (hlength : as.length = bs.length) (hvalue : value as = value bs) : as = bs := by
  induction has generalizing bs with
  | @last a ha =>
    cases hbs with
    | @last b hb =>
      rw [UInt8.lt_iff_toNat_lt] at ha hb
      have ha' : a.toNat < 128 := ha
      have hb' : b.toNat < 128 := hb
      simp only [value] at hvalue
      obtain rfl : a = b := UInt8.toNat_inj.1 (by omega)
      rfl
    | more _ h =>
      have hpos := h.length_pos
      simp only [List.length_cons, List.length_nil] at hlength
      omega
  | @more a as ha h ih =>
    cases hbs with
    | last _ =>
      have hpos := h.length_pos
      simp only [List.length_cons, List.length_nil] at hlength
      omega
    | @more b bs hb hbs =>
      rw [UInt8.lt_iff_toNat_lt] at ha hb
      have ha' : ¬ a.toNat < 128 := ha
      have hb' : ¬ b.toNat < 128 := hb
      have halt := a.toNat_lt
      have hblt := b.toNat_lt
      -- The first bytes have the low group each, and the rest spells the rest.
      simp only [value] at hvalue
      obtain rfl : a = b := UInt8.toNat_inj.1 (by omega)
      rw [ih hbs (Nat.succ.inj hlength) (by omega)]

/-- As many groups are written as the number has digits, and one for zero. -/
theorem length_groups {fuel n : Nat} (h : n < capacity (fuel + 1)) :
    (groups (fuel + 1) n).length = max 1 (Nat.digits 128 n).length := by
  induction fuel generalizing n with
  | zero =>
    have hn : n < 128 := h
    rw [groups, if_pos hn]
    by_cases hzero : n = 0
    · simp [hzero]
    · rw [Nat.digits_of_lt 128 n hzero hn]
      rfl
  | succ fuel ih =>
    rw [groups]
    by_cases hn : n < 128
    · rw [if_pos hn]
      by_cases hzero : n = 0
      · simp [hzero]
      · rw [Nat.digits_of_lt 128 n hzero hn]
        rfl
    · have hrest : n / 128 < capacity (fuel + 1) := Nat.div_lt_of_lt_mul h
      have hpos : (Nat.digits 128 (n / 128)).length ≠ 0 := by
        rw [Ne, List.length_eq_zero_iff, Nat.digits_eq_nil_iff_eq_zero]
        omega
      have hdigits : Nat.digits 128 n = n % 128 :: Nat.digits 128 (n / 128) :=
        Nat.digits_def' (by omega) (by omega)
      rw [if_neg hn, List.length_cons, ih hrest, hdigits, List.length_cons]
      omega

theorem length_encode (n : UInt32) :
    (encode n).length = max 1 (Nat.digits 128 n.toNat).length :=
  length_groups (Nat.lt_of_lt_of_le n.toNat_lt (by decide))

/-! ## Groups by shifts and masks -/

/-- The low group of a word with the high bit of the byte set. -/
def lowGroup (n : UInt32) : UInt8 := (n.toUInt8 &&& 0x7f) ||| 0x80

/-- Two bytes packed into a word, which is stored with its low byte first. -/
def storeTwo (a b : UInt8) : Bytes :=
  LittleEndian.encode 2 ((b.toUInt16 <<< 8) ||| a.toUInt16).toNat

def storeFour (a b c d : UInt8) : Bytes :=
  LittleEndian.encode 4
    ((d.toUInt32 <<< 24) ||| (c.toUInt32 <<< 16) ||| (b.toUInt32 <<< 8) ||| a.toUInt32).toNat

/-- The bytes of a number, one branch for each number of groups. -/
def unrolled (n : UInt32) : Bytes :=
  if n < 0x80 then [n.toUInt8]
  else if n < 0x4000 then storeTwo (lowGroup n) (n >>> 7).toUInt8
  else if n < 0x200000 then
    storeTwo (lowGroup n) (lowGroup (n >>> 7)) ++ [(n >>> 14).toUInt8]
  else if n < 0x10000000 then
    storeFour (lowGroup n) (lowGroup (n >>> 7)) (lowGroup (n >>> 14)) (n >>> 21).toUInt8
  else
    storeFour (lowGroup n) (lowGroup (n >>> 7)) (lowGroup (n >>> 14)) (lowGroup (n >>> 21)) ++
      [(n >>> 28).toUInt8]

/-- Bits above the others are added to them. -/
theorem mul_or {low k : Nat} (high : Nat) (h : low < 2 ^ k) :
    high * 2 ^ k ||| low = high * 2 ^ k + low := by
  rw [← Nat.shiftLeft_eq, Nat.shiftLeft_add_eq_or_of_lt h]

theorem lowGroup_eq (n : UInt32) : lowGroup n = UInt8.ofNat (n.toNat % 128 + 128) := by
  have hmask : n.toNat % 256 &&& 127 = n.toNat % 256 % 128 :=
    Nat.and_two_pow_sub_one_eq_mod (n.toNat % 256) 7
  have hor : 1 * 2 ^ 7 ||| n.toNat % 256 % 128 = 1 * 2 ^ 7 + n.toNat % 256 % 128 :=
    mul_or 1 (Nat.mod_lt _ (by decide))
  apply UInt8.toNat_inj.1
  unfold lowGroup
  rw [UInt8.toNat_or, UInt8.toNat_and, UInt32.toNat_toUInt8, UInt8.toNat_ofNat']
  show n.toNat % 256 &&& 127 ||| 1 * 2 ^ 7 = _
  rw [hmask, Nat.or_comm, hor]
  omega

theorem storeTwo_eq (a b : UInt8) : storeTwo a b = [a, b] := by
  have ha := a.toNat_lt
  have hb := b.toNat_lt
  have hword : ((b.toUInt16 <<< 8) ||| a.toUInt16).toNat = LittleEndian.decode [a, b] := by
    rw [UInt16.toNat_or, UInt16.toNat_shiftLeft, UInt8.toNat_toUInt16, UInt8.toNat_toUInt16]
    show b.toNat <<< 8 % 2 ^ 16 ||| a.toNat = _
    rw [Nat.shiftLeft_eq, Nat.mod_eq_of_lt (by omega), mul_or b.toNat ha]
    simp only [LittleEndian.decode]
    omega
  unfold storeTwo
  rw [hword]
  exact LittleEndian.encode_decode [a, b]

theorem storeFour_eq (a b c d : UInt8) : storeFour a b c d = [a, b, c, d] := by
  have ha := a.toNat_lt
  have hb := b.toNat_lt
  have hc := c.toNat_lt
  have hd := d.toNat_lt
  -- One byte after the other goes below those that are packed already.
  have htwo : d.toNat * 2 ^ 24 ||| c.toNat * 2 ^ 16 = (d.toNat * 2 ^ 8 + c.toNat) * 2 ^ 16 := by
    rw [mul_or d.toNat (by omega)]
    omega
  have hthree : (d.toNat * 2 ^ 8 + c.toNat) * 2 ^ 16 ||| b.toNat * 2 ^ 8 =
      ((d.toNat * 2 ^ 8 + c.toNat) * 2 ^ 8 + b.toNat) * 2 ^ 8 := by
    rw [mul_or _ (by omega)]
    omega
  have hword : ((d.toUInt32 <<< 24) ||| (c.toUInt32 <<< 16) ||| (b.toUInt32 <<< 8) |||
      a.toUInt32).toNat = LittleEndian.decode [a, b, c, d] := by
    simp only [UInt32.toNat_or, UInt32.toNat_shiftLeft, UInt8.toNat_toUInt32]
    show d.toNat <<< 24 % 2 ^ 32 ||| c.toNat <<< 16 % 2 ^ 32 ||| b.toNat <<< 8 % 2 ^ 32 |||
      a.toNat = _
    rw [Nat.shiftLeft_eq, Nat.shiftLeft_eq, Nat.shiftLeft_eq, Nat.mod_eq_of_lt (by omega),
      Nat.mod_eq_of_lt (by omega), Nat.mod_eq_of_lt (by omega), htwo, hthree, mul_or _ ha]
    simp only [LittleEndian.decode]
    omega
  unfold storeFour
  rw [hword]
  exact LittleEndian.encode_decode [a, b, c, d]

theorem groups_of_lt {n : Nat} (fuel : Nat) (h : n < 128) :
    groups (fuel + 1) n = [UInt8.ofNat n] := by
  rw [groups, if_pos h]

theorem groups_of_not_lt {n : Nat} (fuel : Nat) (h : ¬ n < 128) :
    groups (fuel + 1) n = UInt8.ofNat (n % 128 + 128) :: groups fuel (n / 128) := by
  rw [groups, if_neg h]

theorem toUInt8_eq (n : UInt32) : n.toUInt8 = UInt8.ofNat n.toNat := rfl

theorem shiftRight_toNat (n : UInt32) :
    (n >>> 7).toNat = n.toNat / 128 ∧ (n >>> 14).toNat = n.toNat / 128 / 128 ∧
      (n >>> 21).toNat = n.toNat / 128 / 128 / 128 ∧
      (n >>> 28).toNat = n.toNat / 128 / 128 / 128 / 128 := by
  simp only [UInt32.toNat_shiftRight, Nat.div_div_eq_div_mul]
  exact ⟨Nat.shiftRight_eq_div_pow _ 7, Nat.shiftRight_eq_div_pow _ 14,
    Nat.shiftRight_eq_div_pow _ 21, Nat.shiftRight_eq_div_pow _ 28⟩

theorem unrolled_eq_encode (n : UInt32) : unrolled n = encode n := by
  obtain ⟨h7, h14, h21, h28⟩ := shiftRight_toNat n
  have hn := n.toNat_lt
  unfold unrolled encode
  simp only [UInt32.lt_iff_toNat_lt, toUInt8_eq, lowGroup_eq, storeTwo_eq, storeFour_eq, h7, h14,
    h21, h28, UInt32.reduceToNat]
  -- Each branch has one group more than the one before it.
  by_cases h1 : n.toNat < 128
  · rw [if_pos h1, groups_of_lt 4 h1]
  rw [if_neg h1, groups_of_not_lt 4 h1]
  by_cases h2 : n.toNat < 16384
  · rw [if_pos h2, groups_of_lt 3 (by omega)]
  rw [if_neg h2, groups_of_not_lt 3 (by omega)]
  by_cases h3 : n.toNat < 2097152
  · rw [if_pos h3, groups_of_lt 2 (by omega)]
    rfl
  rw [if_neg h3, groups_of_not_lt 2 (by omega)]
  by_cases h4 : n.toNat < 268435456
  · rw [if_pos h4, groups_of_lt 1 (by omega)]
  rw [if_neg h4, groups_of_not_lt 1 (by omega), groups_of_lt 0 (by omega)]
  rfl

end Varint

/-! ## Reading and writing -/

open Varint

/-- A first byte was there to be read. -/
theorem Read.cursor_le_of_varint {r r' : Reader} {n : UInt32} (h : varint r = (.ok n, r')) :
    r.cursor ≤ r.data.size := by
  unfold varint at h
  rw [groups] at h
  obtain ⟨_, _, hbyte, -⟩ := Action.bind_eq_ok.1 h
  obtain ⟨_, _, htake, -⟩ := Action.bind_eq_ok.1 hbyte
  exact (before_of_take htake).1.cursor_le

theorem Read.varint_eq_ok {r r' : Reader} {n : UInt32} :
    varint r = (.ok n, r') ↔ ∃ bs, bs <+: r.rest ∧ Form bs n.toNat ∧ r' = r.advance bs.length := by
  simp only [form_iff_spells]
  by_cases h : r.cursor ≤ r.data.size
  · exact eq_ok_iff (fun k => sound_varint) (fun bs n => yields_varint) h
  · constructor
    · intro hx
      exact absurd (cursor_le_of_varint hx) h
    · rintro ⟨bs, hbs, hspells, -⟩
      -- Past the end there are no bytes, and no number has an empty form.
      have hpos := hspells.terminated.length_pos
      have hlength := hbs.length_le
      have hsize : r.data.toList.length = r.data.size := Array.length_toList
      rw [Reader.rest_eq_drop, List.length_drop] at hlength
      omega

/-- What is read is any form of a number, with nothing else looked at or changed.
    What is written is one of them, by the branches of `unrolled`: no form is
    shorter, no other form is as short, and it has as many bytes as the number has
    digits in base 128. -/
theorem varint_shortest :
    (∀ r n r', Read.varint r = (.ok n, r') ↔
      ∃ bs, bs <+: r.rest ∧ Form bs n.toNat ∧ r' = { r with cursor := r.cursor + bs.length }) ∧
    ∀ n w, Write.varint n w = (.ok (), w.append (unrolled n)) ∧ Form (unrolled n) n.toNat ∧
      (∀ bs, Form bs n.toNat → (unrolled n).length ≤ bs.length ∧
        (bs.length = (unrolled n).length → bs = unrolled n)) ∧
      (unrolled n).length = max 1 (Nat.digits 128 n.toNat).length := by
  refine ⟨fun r n r' => Read.varint_eq_ok, fun n w => ?_⟩
  have hspells := spells_encode n
  rw [unrolled_eq_encode]
  refine ⟨rfl, form_iff_spells.2 hspells, fun bs hbs => ?_, length_encode n⟩
  have hother := form_iff_spells.1 hbs
  refine ⟨hother.length_encode_le, fun hlength => ?_⟩
  have hvalue : value bs = value (encode n) := by
    rw [hother.value_eq, hspells.value_eq]
  exact hother.terminated.eq_of_value_eq hspells.terminated hlength hvalue

/-- A number may be padded, so that more bytes are read than are written. -/
theorem varint_shortest_padded :
    Form [0xac, 0x82, 0x00] 300 ∧
      Read.varint (.ofBytes [0xac, 0x82, 0x00]) =
        (.ok 300, { Reader.ofBytes [0xac, 0x82, 0x00] with cursor := 3 }) ∧
      (unrolled 300).length ≤ 3 ∧ unrolled 300 = [0xac, 0x02] := by
  have hform : Form [0xac, 0x82, 0x00] (300 : UInt32).toNat :=
    ⟨by decide, by decide, by simp, by simp, rfl, by decide⟩
  have hprefix : [0xac, 0x82, 0x00] <+: (Reader.ofBytes [0xac, 0x82, 0x00]).rest := by
    rw [Reader.rest_eq_drop]
    exact ⟨[], rfl⟩
  obtain ⟨hread, hwrite⟩ := varint_shortest
  obtain ⟨-, -, hleast, -⟩ := hwrite 300 .empty
  exact ⟨hform, (hread _ _ _).2 ⟨_, hprefix, hform, rfl⟩, (hleast _ hform).1, rfl⟩

end ChainCodec
