import ChainCodec.Proofs.Segments

/-! # Variable-length integers on the wire

    A number is spelled in groups of seven bits, of which the last one is told
    by its high bit.  High groups may be zero, so that most numbers have
    several spellings; `Read.varint` takes all of those with at most five
    bytes, and `Varint.encode` writes one of them. -/

namespace ChainCodec

namespace Varint

/-! ## Spellings -/

/-- The number that the groups make up, the lowest first. -/
def value : Bytes → Nat
  | [] => 0
  | b :: bs => b.toNat % 128 + 128 * value bs

/-- All bytes but the last have their high bit set. -/
inductive Terminated : Bytes → Prop
  | last {b : UInt8} (h : b < 128) : Terminated [b]
  | more {b : UInt8} {bs : Bytes} (hb : ¬ b < 128) (h : Terminated bs) : Terminated (b :: bs)

structure Spells (n : UInt32) (bs : Bytes) : Prop where
  terminated : Terminated bs
  length_le : bs.length ≤ 5
  value_eq : value bs = n.toNat

/-- The bytes spell a number of parts. -/
def Counts (n : Nat) (bs : Bytes) : Prop := ∃ m : UInt32, m.toNat = n ∧ Spells m bs

/-- How many numbers have so many groups. -/
def capacity : (count : Nat) → Nat
  | 0 => 1
  | count + 1 => 128 * capacity count

theorem low_lt (n : Nat) : n % 128 < 128 := Nat.mod_lt n (by decide)

theorem groups_spec {fuel n : Nat} (h : n < capacity (fuel + 1)) :
    Terminated (groups (fuel + 1) n) ∧ (groups (fuel + 1) n).length ≤ fuel + 1 ∧
      value (groups (fuel + 1) n) = n := by
  -- With the last group allowed, the number has no bits left but its own.
  induction fuel generalizing n with
  | zero =>
    have hn : n < 128 := h
    have hb : (UInt8.ofNat n).toNat = n := by
      rw [UInt8.toNat_ofNat']
      omega
    simp only [groups, if_pos hn]
    refine ⟨.last ?_, Nat.le_refl _, ?_⟩
    · rw [UInt8.lt_iff_toNat_lt, hb]
      exact hn
    · simp only [value, hb]
      omega
  | succ fuel ih =>
    rw [groups]
    split
    · rename_i hn
      have hb : (UInt8.ofNat n).toNat = n := by
        rw [UInt8.toNat_ofNat']
        omega
      refine ⟨.last ?_, by simp, ?_⟩
      · rw [UInt8.lt_iff_toNat_lt, hb]
        exact hn
      · simp only [value, hb]
        omega
    · -- The low group goes first, with its high bit set, and the rest follows.
      have hlow := low_lt n
      have hb : (UInt8.ofNat (n % 128 + 128)).toNat = n % 128 + 128 := by
        rw [UInt8.toNat_ofNat']
        omega
      have hrest : n / 128 < capacity (fuel + 1) := Nat.div_lt_of_lt_mul h
      obtain ⟨hterminated, hlength, hvalue⟩ := ih hrest
      refine ⟨.more ?_ hterminated, ?_, ?_⟩
      · rw [UInt8.lt_iff_toNat_lt, hb]
        exact fun hlt => Nat.not_lt.2 (Nat.le_add_left 128 _) hlt
      · rw [List.length_cons]
        omega
      · rw [value, hvalue, hb]
        omega

theorem spells_encode (n : UInt32) : Spells n (encode n) := by
  have hcapacity : n.toNat < capacity 5 := Nat.lt_of_lt_of_le n.toNat_lt (by decide)
  obtain ⟨hterminated, hlength, hvalue⟩ := groups_spec hcapacity
  exact ⟨hterminated, hlength, hvalue⟩

theorem counts_encode {n : Nat} (h : n < UInt32.size) : Counts n (encode (UInt32.ofNat n)) :=
  ⟨UInt32.ofNat n, UInt32.toNat_ofNat_of_lt' h, spells_encode _⟩

theorem Counts.lt {n : Nat} {bs : Bytes} (h : Counts n bs) : n < UInt32.size := by
  obtain ⟨m, rfl, _⟩ := h
  exact m.toNat_lt

theorem Terminated.length_pos {bs : Bytes} (h : Terminated bs) : 0 < bs.length := by
  cases h with
  | last _ => exact Nat.zero_lt_one
  | more _ _ => exact Nat.zero_lt_succ _

theorem Counts.length_pos {n : Nat} {bs : Bytes} (h : Counts n bs) : 0 < bs.length := by
  obtain ⟨_, _, hspells⟩ := h
  exact hspells.terminated.length_pos

/-- Without padding there are no more groups than in any other spelling. -/
theorem length_groups_le (fuel : Nat) {bs : Bytes} (h : Terminated bs) :
    (groups fuel (value bs)).length ≤ bs.length := by
  induction fuel generalizing bs with
  | zero => exact Nat.zero_le _
  | succ fuel ih =>
    rw [groups]
    split
    · exact h.length_pos
    · rename_i hlarge
      cases h with
      | @last b _ =>
        have hlow := low_lt b.toNat
        simp only [value] at hlarge
        omega
      | @more b bs _ h =>
        -- The low group is the first byte, and the others spell the rest.
        have hlow := low_lt b.toNat
        have hrest : value (b :: bs) / 128 = value bs := by
          rw [value]
          omega
        rw [hrest]
        exact Nat.succ_le_succ (ih h)

theorem Spells.length_encode_le {n : UInt32} {bs : Bytes} (h : Spells n bs) :
    (encode n).length ≤ bs.length := by
  rw [encode, ← h.value_eq]
  exact length_groups_le 5 h.terminated

theorem Counts.length_encode_le {n : Nat} {bs : Bytes} (h : Counts n bs) :
    (encode (UInt32.ofNat n)).length ≤ bs.length := by
  obtain ⟨m, rfl, hspells⟩ := h
  rw [UInt32.ofNat_toNat]
  exact hspells.length_encode_le

end Varint

/-! ## Reading them -/

namespace Read

open Varint

variable {k : Nat}

theorem sound_take (n : Nat) : Sound k (fun bs a => bs.length = n ∧ a = bs) (take n) := by
  intro r bs r' _ _ h
  obtain ⟨hbs, hlength, hr'⟩ := before_of_take h
  exact ⟨bs, hbs, hlength ▸ hr', hlength, rfl⟩

theorem sound_byte : Sound k (fun bs b => bs = [b]) byte := by
  refine ((sound_take 1).bind fun bs => sound_pure (bs.headD 0)).imp ?_
  intro _ b h
  rcases h with ⟨bs, as, _, ⟨hlength, rfl⟩, ⟨rfl, rfl⟩, rfl⟩
  obtain ⟨a, rfl⟩ := List.length_eq_one_iff.1 hlength
  rfl

theorem yields_byte (b : UInt8) : Yields k byte [b] b := by
  have htake : Yields k (take 1) [b] [b] := yields_take rfl
  exact htake.bind_nil (yields_pure b)

theorem sound_groups (left weight low : Nat) :
    Sound k (fun bs n => Terminated bs ∧ bs.length ≤ left ∧ low + weight * value bs = n.toNat)
      (groups left weight low) := by
  induction left generalizing weight low with
  | zero => exact sound_fail _
  | succ left ih =>
    rw [groups]
    -- What follows a byte depends on whether it is the last one.
    have hrest : ∀ b : UInt8, Sound k (fun bs n => Terminated (b :: bs) ∧ bs.length ≤ left ∧
        low + weight * value (b :: bs) = n.toNat)
        (if b < 128 then
          if low + (b.toNat % 128) * weight < UInt32.size then
            pure (UInt32.ofNat (low + (b.toNat % 128) * weight))
          else fail (.decode (.varintOverflow (low + (b.toNat % 128) * weight)))
        else groups left (weight * 128) (low + (b.toNat % 128) * weight)) := by
      intro b
      have hvalue (bs : Bytes) : low + weight * value (b :: bs) =
          low + (b.toNat % 128) * weight + weight * 128 * value bs := by
        rw [value, Nat.mul_add, Nat.mul_comm weight, Nat.mul_assoc, Nat.add_assoc]
      split
      · rename_i hb
        split
        · rename_i hsize
          refine (sound_pure _).imp ?_
          intro _ _ h
          rcases h with ⟨rfl, rfl⟩
          refine ⟨.last hb, Nat.zero_le _, ?_⟩
          rw [hvalue, UInt32.toNat_ofNat_of_lt' hsize, value, Nat.mul_zero, Nat.add_zero]
        · exact sound_fail _
      · rename_i hb
        refine (ih (weight * 128) (low + (b.toNat % 128) * weight)).imp ?_
        intro bs n h
        rcases h with ⟨hterminated, hlength, hn⟩
        exact ⟨.more hb hterminated, hlength, (hvalue bs).trans hn⟩
    refine (sound_byte.bind hrest).imp ?_
    intro _ n h
    rcases h with ⟨b, _, bs, rfl, ⟨hterminated, hlength, hn⟩, rfl⟩
    exact ⟨hterminated, Nat.succ_le_succ hlength, hn⟩

theorem yields_groups {left weight low : Nat} {bs : Bytes} {n : UInt32} (h : Terminated bs)
    (hlength : bs.length ≤ left) (hn : low + weight * value bs = n.toNat) :
    Yields k (groups left weight low) bs n := by
  induction h generalizing left weight low with
  | @last b hb =>
    obtain ⟨left, rfl⟩ : ∃ m, left = m + 1 := ⟨left - 1, by simp at hlength; omega⟩
    have hlow : low + (b.toNat % 128) * weight = n.toNat := by
      rw [← hn, value, value, Nat.mul_zero, Nat.add_zero, Nat.mul_comm]
    have hsize : n.toNat < UInt32.size := n.toNat_lt
    rw [groups]
    refine (yields_byte b).bind_nil ?_
    simp only [hlow, if_pos hb, if_pos hsize, UInt32.ofNat_toNat]
    exact yields_pure n
  | @more b bs hb h ih =>
    obtain ⟨left, rfl⟩ : ∃ m, left = m + 1 := ⟨left - 1, by simp at hlength; omega⟩
    have hlow : low + (b.toNat % 128) * weight + weight * 128 * value bs = n.toNat := by
      rw [← hn, value, Nat.mul_add, Nat.mul_comm weight (b.toNat % 128), Nat.mul_assoc,
        Nat.add_assoc]
    rw [groups]
    have hrest : Yields k (groups left (weight * 128) (low + (b.toNat % 128) * weight)) bs n :=
      ih (Nat.le_of_succ_le_succ hlength) hlow
    refine (yields_byte b).bind ?_
    simp only [if_neg hb]
    exact hrest

theorem sound_varint : Sound k (fun bs n => Spells n bs) varint := by
  refine (sound_groups 5 1 0).imp ?_
  intro bs n h
  rcases h with ⟨hterminated, hlength, hn⟩
  rw [Nat.zero_add, Nat.one_mul] at hn
  exact ⟨hterminated, hlength, hn⟩

theorem yields_varint {bs : Bytes} {n : UInt32} (h : Spells n bs) : Yields k varint bs n := by
  refine yields_groups h.terminated h.length_le ?_
  rw [Nat.zero_add, Nat.one_mul, h.value_eq]

/-! ## Counted parts -/

variable {α β : Type} {g : Nat → Read α} {f : List α → Read β}

theorem sound_counted {G : Bytes → α → Prop} {H : List α → Bytes → β → Prop}
    (hg : ∀ i, Sound k G (g i)) (hf : ∀ as, Sound k (H as) (f as)) :
    Sound k (fun bs b => ∃ count parts cs, Counts (List.length parts) count ∧
        (∀ e ∈ parts, G e.1 e.2) ∧ H (parts.map Prod.snd) cs b ∧
          bs = count ++ (parts.flatMap Prod.fst ++ cs)) (do
      let n ← varint
      let as ← repeatFrom g 0 n.toNat
      f as) := by
  refine (sound_varint.bind fun n => (Sound.repeatFrom hg 0 n.toNat).bind hf).imp ?_
  intro _ b h
  rcases h with ⟨n, count, _, hn, ⟨_, _, cs, ⟨parts, hlength, hparts, rfl, rfl⟩, hH, rfl⟩, rfl⟩
  exact ⟨count, parts, cs, ⟨n, hlength.symm, hn⟩, hparts, hH, rfl⟩

theorem yields_counted {γ : Type} {parts : List γ} {bytes : γ → Bytes} {result : γ → α}
    {count cs : Bytes} {b : β} (hcount : Counts parts.length count)
    (hg : ∀ e ∈ parts, ∀ i, Yields k (g i) (bytes e) (result e))
    (hf : Yields k (f (parts.map result)) cs b) :
    Yields k (do
      let n ← varint
      let as ← repeatFrom g 0 n.toNat
      f as) (count ++ (parts.flatMap bytes ++ cs)) b := by
  obtain ⟨n, hn, hspells⟩ := hcount
  refine (yields_varint hspells).bind ?_
  rw [hn]
  exact (Yields.repeatFrom hg 0).bind hf

end Read

end ChainCodec
