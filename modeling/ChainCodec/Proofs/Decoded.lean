import ChainCodec.Proofs.WireRoundTrip
import Mathlib

/-! # Decoded values

    Reading puts sets and maps in the order of the bytes that were read.  A
    padded number has other bytes than its encoding, and so has a set whose
    elements come in another order.  So what is decoded is canonical exactly
    if the order is right for the encodings as well, and no fee is left to be
    filled in; then it can be serialized and decoded again. -/

namespace ChainCodec.Codec

variable {env : Registries} {c : Codec} {v : Value} {b : Bytes}

/-- What is decoded is its own canonical value exactly if every set and every
    map in it ascends in the encodings of its elements or keys, and no fee is
    filled in.  Then it is encoded, and the encoding is decoded to it. -/
theorem normalize_deserialized (hnames : DistinctNames env c)
    (h : deserialize env c b = .ok v) :
    (normalize env c v = .ok v ↔
      ∀ n d w, Part env c v n d w → Ordered env d w ∧ Settled env d w) ∧
    (normalize env c v = .ok v →
      ∃ b', serialize env c v = .ok b' ∧ deserialize env c b' = .ok v) := by
  have hspells := deserialize_eq_ok_iff.1 h
  have hshape := hspells.shaped hnames
  constructor
  · constructor
    · intro hself n d w hw
      -- The value is a result of normalization, and so in order.
      have hordered := shaped_of_normalize hnames hself
      exact ⟨(hordered.part hw).holds, settled_of_normalize hshape hnames hself hw⟩
    · intro hstable
      exact (respells_self (hshape.of_parts hstable)).normal
  · intro hself
    have hordered := shaped_of_normalize hnames hself
    -- Whatever was counted when it was read can be counted when it is written.
    obtain ⟨b', hb'⟩ := (exists_encode_iff hshape).2 (hshape.imp fun _ _ hP => hP.1)
    refine ⟨b', (serialize_of_normalize hself).trans hb', deserialize_eq_ok_iff.2 ?_⟩
    refine spells_of_encode (hshape.of_parts fun n d w hw => ?_) (hspells.nestsWithin hnames) hb'
    exact ⟨(hordered.part hw).holds, (hshape.part hw).holds.2⟩

theorem deserialize_reversedSet :
    deserialize .live (.set .varint) [2, 1, 0] = .ok (.array [.int 0, .int 1]) := by
  cbv

theorem normalize_deserialized_reversedSet :
    (∀ n d w, Part .live (.set .varint) (.array [.int 0, .int 1]) n d w →
        Ordered .live d w ∧ Settled .live d w) ∧
      ∃ b', serialize .live (.set .varint) (.array [.int 0, .int 1]) = .ok b' ∧
        deserialize .live (.set .varint) b' = .ok (.array [.int 0, .int 1]) := by
  have hnames : DistinctNames .live (.set .varint) := fun d hd =>
    nodup_of_wellFormed (hd.passes Registries.wellFormed_live rfl)
  have hself : normalize .live (.set .varint) (.array [.int 0, .int 1]) =
      .ok (.array [.int 0, .int 1]) := by
    cbv
  have h := normalize_deserialized hnames deserialize_reversedSet
  exact ⟨h.1.1 hself, h.2 hself⟩

/-- The number 0 in two bytes comes behind 1, as it would not in one byte. -/
theorem normalize_paddedSet :
    deserialize .live (.set .varint) [2, 0x80, 0, 1] = .ok (.array [.int 1, .int 0]) ∧
      normalize .live (.set .varint) (.array [.int 1, .int 0]) =
        .ok (.array [.int 0, .int 1]) := by
  constructor <;> cbv

end ChainCodec.Codec
