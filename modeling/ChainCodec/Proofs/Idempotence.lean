import ChainCodec.Proofs.Encoding
import ChainCodec.Proofs.Respelling
import ChainCodec.Proofs.WellFormed
import Mathlib

/-! # Normalization is idempotent and complete for encoding

    Every codec checks a value twice, once when it is normalized and once
    when the canonical value is written.  The second check never refuses what
    the first one gave, and normalizing a second time changes nothing unless
    a fee is filled in that was not there. -/

namespace ChainCodec.Codec

variable {env : Registries} {c : Codec} {v raw : Value}

theorem encode_eq_ok_iff {b : Bytes} :
    encode env c raw = .ok b ↔
      (write env c raw .empty).1 = .ok () ∧ (write env c raw .empty).2.bytes = b := by
  simp only [encode, Write.run]
  rcases write env c raw .empty with ⟨_ | a, w⟩ <;> simp

/-- Behind any bytes a value is written if it has bytes of its own. -/
theorem write_eq_ok_iff (w : Writer) :
    (write env c raw w).1 = .ok () ↔ ∃ b, encode env c raw = .ok b := by
  -- Success does not depend on the bytes already written.
  rw [write_appending env c raw w]
  constructor
  · intro h
    exact ⟨_, encode_eq_ok_iff.2 ⟨h, rfl⟩⟩
  · intro h
    rcases h with ⟨b, hb⟩
    exact (encode_eq_ok_iff.1 hb).1

/-- What has a shape is written if none of its parts is too long. -/
theorem write_iff_fits {P : Codec → Value → Prop} (h : Shaped env P c raw) (w : Writer) :
    (write env c raw w).1 = .ok () ↔ ∀ n d x, Part env c raw n d x → Fits d x := by
  rw [write_eq_ok_iff, exists_encode_iff h]
  constructor
  · intro hfits n d x hx
    exact (hfits.part hx).holds
  · exact h.of_parts

theorem serialize_of_normalize (h : normalize env c v = .ok raw) :
    serialize env c v = encode env c raw := by
  rw [serialize, Except.bind_ok h]

theorem validate_eq_ok_iff : validate env c v = .ok () ↔ ∃ raw, normalize env c v = .ok raw := by
  simp only [validate, Except.bind_eq_ok]
  constructor
  · intro h
    rcases h with ⟨raw, h, _⟩
    exact ⟨raw, h⟩
  · intro h
    rcases h with ⟨raw, h⟩
    exact ⟨raw, h, rfl⟩

/-- A canonical value is its own canonical value and has the bytes of the value,
    where schemas see to it that fees stay, as those of protocols do.  Elsewhere
    this holds exactly if its fees are settled.

    The canonical value is written, behind whatever was written before, unless
    something in it is longer than 32 bits can count; so short values
    serialize if they are valid. -/
theorem normalize_idempotent (hnames : DistinctNames env c) (v : Value) :
    (∀ raw, normalize env c v = .ok raw →
      (FeesKept env c →
        normalize env c raw = .ok raw ∧ serialize env c raw = serialize env c v) ∧
      (normalize env c raw = .ok raw ↔ ∀ n d x, Part env c raw n d x → Settled env d x) ∧
      (normalize env c raw = .ok raw → serialize env c raw = serialize env c v) ∧
      ∀ w : Writer, (write env c raw w).1 = .ok () ↔
        ∀ n d x, Part env c raw n d x → Fits d x) ∧
    (∀ d, FeesKept .live d) ∧
    ((∀ raw, normalize env c v = .ok raw → ∀ n d x, Part env c raw n d x → Fits d x) →
      ((∃ b, serialize env c v = .ok b) ↔ validate env c v = .ok ())) := by
  refine ⟨fun raw h => ?_, Registries.feesKept_live, fun hfits => ?_⟩
  · have hshape := shaped_of_normalize hnames h
    have hbytes : normalize env c raw = .ok raw → serialize env c raw = serialize env c v := by
      intro hself
      rw [serialize_of_normalize hself, serialize_of_normalize h]
    refine ⟨fun hfees => ?_, normalize_self_iff hnames hshape, hbytes, write_iff_fits hshape⟩
    have hself := normalize_self_of_feesKept hnames hfees hshape
    exact ⟨hself, hbytes hself⟩
  · rw [validate_eq_ok_iff]
    constructor
    · intro h
      rcases h with ⟨b, hb⟩
      obtain ⟨raw, h, _⟩ := Except.bind_eq_ok.1 hb
      exact ⟨raw, h⟩
    · intro h
      rcases h with ⟨raw, h⟩
      -- The value is valid, and all that can still fail is the length of a part.
      rw [serialize_of_normalize h, exists_encode_iff (shaped_of_normalize hnames h)]
      exact (shaped_of_normalize hnames h).of_parts (hfits raw h)

/-- A transfer without a fee, with numbers and ids in several spellings. -/
def feelessTransfer : Value :=
  .array [.int 0, .object [
    ("from", .str "1.2.5"),
    ("to", .int 7),
    ("amount", .object [("amount", .str "12"), ("asset_id", .str "1.3.0")]),
    ("extensions", .null)]]

/-- The canonical value of `feelessTransfer` where fees are filled in. -/
def transferWithZeroFee : Value :=
  .array [.int 0, .object [
    ("fee", .object [("amount", .int 0), ("asset_id", .str "1.3.0")]),
    ("from", .str "1.2.5"),
    ("to", .str "1.2.7"),
    ("amount", .object [("amount", .int 12), ("asset_id", .str "1.3.0")]),
    ("extensions", .array [])]]

theorem normalize_feelessTransfer :
    normalize .live (Protocol.feeEstimatingOperation {}) feelessTransfer =
      .ok transferWithZeroFee := by
  cbv

/-- The zero fee is filled in once, and stays. -/
theorem normalize_idempotent_feelessTransfer :
    normalize .live (Protocol.feeEstimatingOperation {}) transferWithZeroFee =
        .ok transferWithZeroFee ∧
      serialize .live (Protocol.feeEstimatingOperation {}) transferWithZeroFee =
        serialize .live (Protocol.feeEstimatingOperation {}) feelessTransfer ∧
      ∀ n d x, Part .live (Protocol.feeEstimatingOperation {}) transferWithZeroFee n d x →
        Settled .live d x := by
  have hmem : ("operation_unrequired_fee", Protocol.feeEstimatingOperation {}) ∈
      Protocol.codecs {} := by simp [Protocol.codecs]
  obtain ⟨hraw, hkept, _⟩ := normalize_idempotent
    (Protocol.distinctNames_of_mem_codecs {} hmem) feelessTransfer
  obtain ⟨hself, hsettled, _⟩ := hraw _ normalize_feelessTransfer
  obtain ⟨hnormal, hbytes⟩ := hself (hkept _)
  exact ⟨hnormal, hbytes, hsettled.1 hnormal⟩

/-- An operation whose fee is nothing at all. -/
def Registries.voidFee : Registries := fun _ => .installed [(0, record [("fee", .void)])]

/-- The fee that is given becomes null, which counts as none, and the zero fee
    that is filled in then is not nothing. -/
theorem normalize_twice_voidFee :
    DistinctNames Registries.voidFee (Protocol.feeEstimatingOperation {}) ∧
      normalize Registries.voidFee (Protocol.feeEstimatingOperation {})
          (.array [.int 0, .object [("fee", .object [])]]) =
        .ok (.array [.int 0, .object [("fee", .null)]]) ∧
      normalize Registries.voidFee (Protocol.feeEstimatingOperation {})
          (.array [.int 0, .object [("fee", .null)]]) ≠
        .ok (.array [.int 0, .object [("fee", .null)]]) := by
  refine ⟨fun d hd => nodup_of_wellFormed (hd.passes ?_ rfl), rfl, ?_⟩
  · intro id table h
    obtain rfl := Except.ok.inj h
    rfl
  · intro h
    cases h

end ChainCodec.Codec
