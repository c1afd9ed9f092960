import ChainCodec.Proofs.CanonicalSpelling
import ChainCodec.Proofs.Idempotence
import ChainCodec.Proofs.Reading.Completeness
import Mathlib

/-! # Serialized values are read back

    The bytes that a value is serialized to are read as its canonical value,
    whatever stands before and behind them, if the reader may open as many
    unions as the value nests.  Under a lower limit the read stops at the
    limit. -/

namespace ChainCodec

theorem Reader.before_between (p b s : Bytes) (limit : Nat) :
    Reader.Before ⟨(p ++ b ++ s).toArray, p.length, 0, limit⟩ b :=
  ⟨p, s, by simp, rfl⟩

namespace Codec

variable {env : Registries} {c : Codec} {v : Value} {b : Bytes}

/-- The encoding of a canonical value is read as the value where its unions
    may be open. -/
theorem read_encode {raw : Value} {r : Reader}
    (h : Shaped env (fun d w => Ordered env d w ∧ d.TellsType) c raw)
    (hb : encode env c raw = .ok b) (hr : r.Before b) (hnests : NestsWithin env r.room c raw) :
    read env c r = (.ok raw, r.advance b.length) :=
  read_eq_of_spells (spells_of_encode h hnests hb) hr (Nat.le_refl _)

/-- Where they may not, reading stops for this reason. -/
theorem read_encode_exceeds {raw : Value} {r : Reader} (hnames : DistinctNames env c)
    (h : Shaped env (fun d w => Ordered env d w ∧ d.TellsType) c raw)
    (hb : encode env c raw = .ok b) (hr : r.Before b) (hnests : ¬ NestsWithin env r.room c raw) :
    Read.Exceeds (read env c) r := by
  -- With enough room the bytes spell the value, so reading gives it or stops.
  have hspells := spells_of_encode h (nestsWithin_arrayDepth env c raw) hb
  rcases read_yields hspells r hr with hread | ⟨_, hexceeds⟩
  · -- What is read with this little room nests no deeper than it.
    have hstart : r.Before [] := by
      rw [← List.nil_append b] at hr
      exact hr.left
    obtain ⟨_, _, _, hspells'⟩ := read_sound env c r.room r raw _ rfl hstart hread
    exact absurd (hspells'.nestsWithin hnames) hnests
  · exact hexceeds

/-- A value that serializes is read back as its canonical value, up to the
    last of its bytes, from inside any buffer; if its unions nest deeper than
    the limit, the limit is what reading fails with. -/
theorem read_serialize (hnames : DistinctNames env c) (hsingle : SingleTyped env c)
    (h : serialize env c v = .ok b) :
    ∃ raw, normalize env c v = .ok raw ∧ ∀ (p s : Bytes) (limit : Nat),
      (NestsWithin env limit c raw →
        read env c ⟨(p ++ b ++ s).toArray, p.length, 0, limit⟩ =
          (.ok raw, ⟨(p ++ b ++ s).toArray, p.length + b.length, 0, limit⟩)) ∧
      (¬ NestsWithin env limit c raw →
        ∃ e r, read env c ⟨(p ++ b ++ s).toArray, p.length, 0, limit⟩ = (.error (.error e), r) ∧
          e.kind = .depthExceed) := by
  obtain ⟨raw, hraw, hb⟩ := Except.bind_eq_ok.1 h
  have hordered := shaped_of_normalize hnames hraw
  -- The types of ids belong to the codec, not to the value.
  have hshape : Shaped env (fun d w => Ordered env d w ∧ d.TellsType) c raw :=
    hordered.of_parts fun n d w hw => ⟨(hordered.part hw).holds, hsingle d hw.reaches⟩
  refine ⟨raw, hraw, fun p s limit => ⟨fun hnests => ?_, fun hnests => ?_⟩⟩
  · exact read_encode hshape hb (Reader.before_between p b s limit) hnests
  · exact read_encode_exceeds hnames hshape hb (Reader.before_between p b s limit) hnests

/-- The encoding of `transferWithZeroFee`. -/
def zeroFeeTransferBytes : Bytes :=
  [0, 0, 0, 0, 0, 0, 0, 0, 0, 0, 5, 7, 12, 0, 0, 0, 0, 0, 0, 0, 0, 0]

theorem serialize_transferWithZeroFee :
    serialize .live (Protocol.operation {}) transferWithZeroFee = .ok zeroFeeTransferBytes := by
  cbv

theorem read_serialize_transferWithZeroFee :
    read .live (Protocol.operation {}) ⟨([9] ++ zeroFeeTransferBytes ++ [9, 9]).toArray, 1, 0, 2⟩ =
      (.ok transferWithZeroFee,
        ⟨([9] ++ zeroFeeTransferBytes ++ [9, 9]).toArray, 23, 0, 2⟩) ∧
    ∃ e r, read .live (Protocol.operation {})
        ⟨([9] ++ zeroFeeTransferBytes ++ [9, 9]).toArray, 1, 0, 0⟩ = (.error (.error e), r) ∧
      e.kind = .depthExceed := by
  have hmem : ("operation", Protocol.operation {}) ∈ Protocol.codecs {} := by
    simp [Protocol.codecs]
  obtain ⟨raw, hraw, h⟩ := read_serialize (Protocol.distinctNames_of_mem_codecs {} hmem)
    (Protocol.singleTyped_of_mem_codecs {} hmem) serialize_transferWithZeroFee
  have hself : normalize .live (Protocol.operation {}) transferWithZeroFee =
      .ok transferWithZeroFee := by
    cbv
  obtain rfl := Except.ok.inj (hself.symm.trans hraw)
  refine ⟨(h [9] [9, 9] 2).1 (nestsWithin_arrayDepth _ _ _), (h [9] [9, 9] 0).2 fun hnests => ?_⟩
  -- The operation itself is one union.
  have htag : (0 : Int) = (0 : UInt32).toNat := rfl
  obtain ⟨fields, hfields⟩ :
      ∃ c, (Schema.operationTable (Protocol.registry {})).lookup 0 = some c := ⟨_, rfl⟩
  exact absurd (hnests.le_of_child (.operand rfl htag hfields)) (by decide)

end Codec

end ChainCodec
