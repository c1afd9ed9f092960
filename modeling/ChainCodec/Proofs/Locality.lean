import ChainCodec.Proofs.PrefixFree
import ChainCodec.Proofs.Truncation
import ChainCodec.Protocol
import Mathlib

/-! # Reads are local

    What a codec reads depends on the bytes that it takes and on nothing else
    in the buffer.  These bytes are read in the same way wherever they stand,
    and no part of them that stands at the end of a buffer is taken for the
    whole. -/

namespace ChainCodec.Codec

variable {env : Registries} {c : Codec} {v : Value}

/-- The bytes that a value was read from are read as this value at any offset
    of any buffer, and a buffer that ends inside them is refused with an error
    of decoding.  So no bytes are deserialized together with an extension of
    them. -/
theorem read_local {b : Bytes} {start depth limit : Nat} {r : Reader} (hstart : start ≤ b.length)
    (h : read env c ⟨b.toArray, start, depth, limit⟩ = (.ok v, r)) :
    (∀ p s : Bytes,
      read env c ⟨(p ++ b.extract start r.cursor ++ s).toArray, p.length, depth, limit⟩ =
        (.ok v, ⟨(p ++ b.extract start r.cursor ++ s).toArray, p.length + (r.cursor - start),
          depth, limit⟩)) ∧
      (b.length < addressLimit → ∀ k, start ≤ k → k < r.cursor →
        ∃ e r', read env c ⟨(b.take k).toArray, start, depth, limit⟩ = (.error (.error e), r') ∧
          e.isDecode = true) ∧
      ∀ (as s : Bytes) (w w' : Value), deserialize env c as = .ok w →
        deserialize env c (as ++ s) = .ok w' → s = [] := by
  refine ⟨fun p s => ?_, fun hsize k hk hlt => ?_, fun as s w w' hw hw' => ?_⟩
  · -- The bytes that were taken spell the value, whatever surrounds them.
    have hbefore : Reader.Before ⟨b.toArray, start, depth, limit⟩ [] :=
      ⟨b.take start, b.drop start, by simp, List.length_take_of_le hstart⟩
    obtain ⟨bs, hbs, rfl, hspells⟩ := read_sound env c _ _ _ _ rfl hbefore h
    have hslice : b.extract start (start + bs.length) = bs := by
      have hslice := Reader.slice_of_before hbs
      rwa [Reader.slice, Array.toList_extract] at hslice
    have hread := read_eq_of_spells (r := ⟨(p ++ bs ++ s).toArray, p.length, depth, limit⟩) hspells
      ⟨p, s, rfl, rfl⟩ (Nat.le_refl _)
    simp only [Reader.advance, hslice, Nat.add_sub_cancel_left] at hread ⊢
    exact hread
  · exact (read_cuttable env c _ v r k h hsize hk).2 hlt
  · exact deserialize_prefixFree hw hw'

/-- A set of two numbers between other bytes. -/
theorem read_local_set :
    read .live (.set .varint) ⟨[7, 2, 0, 5].toArray, 1, 0, 0⟩ =
        (.ok (.array [.int 0, .int 5]), ⟨[7, 2, 0, 5].toArray, 4, 0, 0⟩) ∧
      ∃ e r, read .live (.set .varint) ⟨[9, 9, 2, 0].toArray, 2, 0, 0⟩ =
        (.error (.error e), r) ∧ e.isDecode = true := by
  have h : read .live (.set .varint) ⟨[9, 9, 2, 0, 5, 9].toArray, 2, 0, 0⟩ =
      (.ok (.array [.int 0, .int 5]), ⟨[9, 9, 2, 0, 5, 9].toArray, 5, 0, 0⟩) := by
    cbv
  obtain ⟨hlocal, hcut, _⟩ := read_local (by decide) h
  exact ⟨hlocal [7] [], hcut (by decide) 4 (by decide) (by decide)⟩

end ChainCodec.Codec
