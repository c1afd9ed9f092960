import ChainCodec.Proofs.Identifiers
import ChainCodec.Proofs.Numerals
import Mathlib

/-! # The three forms of an object id

    An object id is a triple of numbers, a text and, if the instance has room,
    one packed number.  `forms_agree` says that the three agree: the text that
    is shown is read back, the texts that are read are three numerals between
    dots, the packed numbers are all the numbers of 64 bits, and packed numbers
    are in order as the triples are.

    Texts and packed numbers each have an inversion lemma, `parse_eq_ok` and
    `toNat_of_packed`, which say all that a success tells. -/

namespace ChainCodec.ObjectId

variable {a b id : ObjectId} {m n : UInt64}

/-! ## Text -/

theorem splitDots_eq_splitOn (cs : List Char) : splitDots cs = cs.splitOn '.' := by
  induction cs with
  | nil => rfl
  | cons c cs ih =>
    by_cases hc : c = '.'
    · subst hc
      rw [splitDots, ih, List.splitOn_cons_eq_if_modifyHead, beq_self_eq_true, if_pos rfl]
    · have hne : cs.splitOn '.' ≠ [] := List.splitOn_ne_nil '.' cs
      obtain ⟨piece, pieces, hpieces⟩ := List.exists_cons_of_ne_nil hne
      rw [splitDots.eq_3 _ _ hc, ih, List.splitOn_cons_eq_if_modifyHead,
        beq_eq_false_iff_ne.2 hc, if_neg Bool.false_ne_true, hpieces]
      rfl

/-- Three pieces, with the dots put back between them, are the text. -/
theorem eq_of_splitDots {cs space type inst : List Char}
    (h : splitDots cs = [space, type, inst]) :
    cs = space ++ '.' :: (type ++ '.' :: inst) := by
  have hjoin : ['.'].intercalate (cs.splitOn '.') = cs := List.intercalate_splitOn '.'
  rw [← splitDots_eq_splitOn, h] at hjoin
  rw [← hjoin]
  simp [List.intercalate]

theorem not_dot_mem_of_numeral {cs : List Char} {n : Int} (h : Decimal.Numeral cs n) :
    '.' ∉ cs := by
  -- A dot is neither a digit nor a minus.
  cases h with
  | plain _ hdigits =>
    intro hdot
    have := hdigits _ hdot
    cases this
  | negated _ hdigits =>
    intro hdot
    rcases List.mem_cons.1 hdot with h | hdot
    · cases h
    · have := hdigits _ hdot
      cases this

/-- A part is a numeral of a number below the limit.  Limits are far below
    the range of decimal texts, so that range excludes no part. -/
theorem part?_eq_some {limit n : Nat} {cs : List Char} (hlimit : limit ≤ UInt64.size) :
    part? limit (String.ofList cs) = some n ↔ Decimal.Numeral cs n ∧ n < limit := by
  have hgreatest : (UInt64.size : Int) ≤ Decimal.greatest := by decide
  have hleast : Decimal.least ≤ 0 := by decide
  have hparse {k : Int} : Decimal.parse (String.ofList cs) = .ok k ↔
      Decimal.Numeral cs k ∧ Decimal.least ≤ k ∧ k ≤ Decimal.greatest := by
    rw [Decimal.parse_eq_ok, String.toList_ofList]
  constructor
  · intro h
    unfold part? at h
    split at h
    · rename_i k hk
      split at h
      · rename_i hlt
        cases h
        exact ⟨(hparse.1 hk).1, hlt⟩
      · cases h
    · cases h
  · rintro ⟨hnumeral, hlt⟩
    have hrange : Decimal.least ≤ (n : Int) ∧ (n : Int) ≤ Decimal.greatest := by omega
    have hk : Decimal.parse (String.ofList cs) = .ok (.ofNat n) := hparse.2 ⟨hnumeral, hrange⟩
    rw [part?, hk]
    exact if_pos hlt

theorem parse_eq_ok_iff_parse? {text : String} : parse text = .ok id ↔ parse? text = some id := by
  unfold parse
  cases parse? text with
  | none => exact ⟨fun h => (by cases h), fun h => (by cases h)⟩
  | some found => rw [Except.ok.injEq, Option.some.injEq]

/-- The texts that are read are three numerals with dots between them, each of
    a number that its field can hold. -/
theorem parse_eq_ok {text : String} :
    parse text = .ok id ↔ ∃ space type inst : List Char,
      text.toList = space ++ '.' :: (type ++ '.' :: inst) ∧
      Decimal.Numeral space id.space.toNat ∧ Decimal.Numeral type id.type.toNat ∧
      Decimal.Numeral inst id.inst.toNat := by
  have hbyte : UInt8.size ≤ UInt64.size := by decide
  rw [parse_eq_ok_iff_parse?]
  constructor
  · intro h
    unfold parse? at h
    split at h
    · rename_i space type inst hsplit
      simp only [Option.bind_eq_bind, Option.bind_eq_some_iff, Option.pure_def,
        Option.some.injEq] at h
      obtain ⟨s, hs, t, ht, i, hi, rfl⟩ := h
      rw [part?_eq_some hbyte] at hs ht
      rw [part?_eq_some (Nat.le_refl _)] at hi
      refine ⟨space, type, inst, eq_of_splitDots hsplit, ?_, ?_, ?_⟩
      · rw [UInt8.toNat_ofNat_of_lt' hs.2]
        exact hs.1
      · rw [UInt8.toNat_ofNat_of_lt' ht.2]
        exact ht.1
      · rw [UInt64.toNat_ofNat_of_lt' hi.2]
        exact hi.1
    · cases h
  · rintro ⟨space, type, inst, htext, hs, ht, hi⟩
    -- Numerals have no dots, so the text splits where they end.
    have hsplit : splitDots text.toList = [space, type, inst] := by
      rw [htext, splitDots_append (not_dot_mem_of_numeral hs),
        splitDots_append (not_dot_mem_of_numeral ht),
        splitDots_of_not_mem (not_dot_mem_of_numeral hi)]
    have hspace := (part?_eq_some hbyte).2 ⟨hs, id.space.toNat_lt⟩
    have htype := (part?_eq_some hbyte).2 ⟨ht, id.type.toNat_lt⟩
    have hinst := (part?_eq_some (Nat.le_refl _)).2 ⟨hi, id.inst.toNat_lt⟩
    simp only [parse?, hsplit, hspace, htype, hinst]
    simp

example : parse "-0.01.007" = .ok ⟨0, 1, 7⟩ := by rfl

/-! ## Packed form -/

theorem exists_packed_iff : (∃ n, id.packed = .ok n) ↔ id.inst.toNat < 2 ^ 48 := by
  have hsize : instanceSize = 2 ^ 48 := by decide
  unfold packed
  rw [hsize]
  split
  · rename_i hinst
    exact ⟨fun _ => hinst, fun _ => ⟨_, rfl⟩⟩
  · rename_i hinst
    exact ⟨fun ⟨_, h⟩ => (by cases h), fun h => absurd h hinst⟩

/-- What a packed number tells of its id: the fields are its digits, in the
    bases of their widths. -/
theorem toNat_of_packed (h : id.packed = .ok n) :
    n.toNat = (id.space.toNat * 256 + id.type.toNat) * 281474976710656 + id.inst.toNat ∧
      id.inst.toNat < 281474976710656 := by
  obtain ⟨hid, hinst⟩ := packed_eq_ok.1 h
  rw [instanceSize_eq] at hinst
  refine ⟨?_, hinst⟩
  have hn := n.toNat_lt
  have hbyte : UInt8.size = 256 := rfl
  rw [← hid]
  simp only [ofPacked, UInt64.toNat_ofNat', UInt8.toNat_ofNat', instanceSize_eq, hbyte]
  omega

theorem packed_ofPacked (n : UInt64) : (ofPacked n).packed = .ok n :=
  packed_eq_ok.2 ⟨rfl, inst_ofPacked_lt n⟩

/-! ## Order -/

/-- The order of the triples: by space, then by type, then by instance. -/
def Before (a b : ObjectId) : Prop :=
  a.space < b.space ∨ a.space = b.space ∧
    (a.type < b.type ∨ a.type = b.type ∧ a.inst < b.inst)

theorem le_eq_true : a.le b = true ↔ a.Before b ∨ a = b := by
  obtain ⟨s, t, i⟩ := a
  obtain ⟨s', t', i'⟩ := b
  -- The first field that differs decides, for both.
  by_cases hs : s = s'
  · subst hs
    by_cases ht : t = t'
    · subst ht
      simp [le, Before, UInt64.le_iff_lt_or_eq]
    · simp [le, Before, ht]
  · simp [le, Before, hs]

/-- Packed numbers compare as their ids do. -/
theorem packed_lt_packed (ha : a.packed = .ok m) (hb : b.packed = .ok n) :
    m < n ↔ a.Before b := by
  obtain ⟨hm, hia⟩ := toNat_of_packed ha
  obtain ⟨hn, hib⟩ := toNat_of_packed hb
  have hta := a.type.toNat_lt
  have htb := b.type.toNat_lt
  simp only [Before, UInt64.lt_iff_toNat_lt, UInt8.lt_iff_toNat_lt, ← UInt8.toNat_inj]
  omega

theorem packed_inj (ha : a.packed = .ok m) (hb : b.packed = .ok n) : m = n ↔ a = b := by
  constructor
  · rintro rfl
    exact (packed_eq_ok.1 ha).1.symm.trans (packed_eq_ok.1 hb).1
  · rintro rfl
    exact Except.ok.inj (ha.symm.trans hb)

theorem packed_le_packed (ha : a.packed = .ok m) (hb : b.packed = .ok n) :
    m ≤ n ↔ a.le b = true := by
  rw [le_eq_true, UInt64.le_iff_lt_or_eq, packed_lt_packed ha hb, packed_inj ha hb]

/-! ## The three forms -/

/-- Text, triple and packed number agree: what is shown is read, what is read
    is three numerals, and packing is a bijection from the ids with room for
    their instance to the numbers of 64 bits that keeps the order. -/
theorem forms_agree :
    (∀ id : ObjectId, parse id.render = .ok id) ∧
    (∀ (text : String) (id : ObjectId), parse text = .ok id ↔
      ∃ space type inst : List Char, text.toList = space ++ '.' :: (type ++ '.' :: inst) ∧
        Decimal.Numeral space id.space.toNat ∧ Decimal.Numeral type id.type.toNat ∧
        Decimal.Numeral inst id.inst.toNat) ∧
    (∀ id : ObjectId, (∃ n, id.packed = .ok n) ↔ id.inst.toNat < 2 ^ 48) ∧
    (∀ (id : ObjectId) (n : UInt64), id.packed = .ok n → ofPacked n = id) ∧
    (∀ n : UInt64, (ofPacked n).packed = .ok n) ∧
    ∀ (a b : ObjectId) (m n : UInt64), a.packed = .ok m → b.packed = .ok n →
      (m < n ↔ a.Before b) ∧ (m ≤ n ↔ a.le b = true) := by
  refine ⟨parse_render, fun _ _ => parse_eq_ok, fun _ => exists_packed_iff, ?_, packed_ofPacked, ?_⟩
  · intro id n h
    exact (packed_eq_ok.1 h).1
  · intro a b m n ha hb
    exact ⟨packed_lt_packed ha hb, packed_le_packed ha hb⟩

/-- The greatest packable id of one type is packed just below the least id of
    the next type. -/
theorem packed_next_type :
    (⟨1, 2, 281474976710655⟩ : ObjectId).packed = .ok 72902018968059903 ∧
    (⟨1, 3, 0⟩ : ObjectId).packed = .ok 72902018968059904 ∧
    ofPacked 72902018968059903 = ⟨1, 2, 281474976710655⟩ ∧
    (⟨1, 2, 281474976710655⟩ : ObjectId).Before ⟨1, 3, 0⟩ := by
  have ha : (⟨1, 2, 281474976710655⟩ : ObjectId).packed = .ok 72902018968059903 := by rfl
  have hb : (⟨1, 3, 0⟩ : ObjectId).packed = .ok 72902018968059904 := by rfl
  obtain ⟨-, -, -, hback, -, horder⟩ := forms_agree
  exact ⟨ha, hb, hback _ _ ha, (horder _ _ _ _ ha hb).1.1 (by decide)⟩

end ChainCodec.ObjectId
