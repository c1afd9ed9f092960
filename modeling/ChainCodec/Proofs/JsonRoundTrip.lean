import ChainCodec.Proofs.JsonSpelling
import ChainCodec.Proofs.WellFormed
import Mathlib

/-! # JSON round trips

    A canonical value can be rendered as JSON, with the schema or without it,
    and what is read back has the same canonical value. -/

namespace ChainCodec.Codec

variable {env : Registries} {c : Codec} {v raw : Value}

/-- What is written without the schema has the canonical value that it was written
    for, if this is its own canonical value. -/
theorem normalize_toJson (hnames : DistinctNames env c) (h : Shaped env (Ordered env) c raw)
    (hself : normalize env c raw = .ok raw) : normalize env c (.ofJson raw.toJson) = .ok raw := by
  -- The fees are settled, and then what is written respells the value.
  have hsettled := (normalize_self_iff hnames h).1 hself
  exact (respells_toJson (stable_of_settled h hsettled)).normal

/-- Rendering with the schema succeeds.  What was rendered, and what was written
    without the schema, has this canonical value again where schemas see to it
    that fees stay, as those of protocols do.  Elsewhere what was written has it
    if it is its own canonical value, and so has what was rendered, if no
    operation that fees are filled into is void. -/
theorem normalize_json (hnames : DistinctNames env c) (h : normalize env c v = .ok raw) :
    (∃ j, render env c raw = .ok j ∧
      (FeesKept env c →
        normalize env c (.ofJson j) = .ok raw ∧ normalize env c (.ofJson raw.toJson) = .ok raw) ∧
      (normalize env c raw = .ok raw →
        normalize env c (.ofJson raw.toJson) = .ok raw ∧
        ((∀ n d w, Part env c raw n d w → HasFields env d w) →
          normalize env c (.ofJson j) = .ok raw))) ∧
    ∀ d, FeesKept .live d := by
  have hshape := shaped_of_normalize hnames h
  obtain ⟨j, hj⟩ := exists_render hshape
  refine ⟨⟨j, hj, fun hfees => ?_, fun hself => ?_⟩, Registries.feesKept_live⟩
  · have hself := normalize_self_of_feesKept hnames hfees hshape
    exact ⟨normalize_render_of_feesKept hfees hshape hj, normalize_toJson hnames hshape hself⟩
  · have hsettled := (normalize_self_iff hnames hshape).1 hself
    refine ⟨normalize_toJson hnames hshape hself, fun hfields => ?_⟩
    exact normalize_render hshape (fun n d w hw => ⟨hsettled n d w hw, hfields n d w hw⟩) hj

/-- A transaction with one transfer, whose fee is left out. -/
def feelessTransaction : Value :=
  .object [
    ("ref_block_num", .int 7),
    ("ref_block_prefix", .str "4294967295"),
    ("expiration", .str "2106-02-07T06:28:15"),
    ("operations", .array [.array [.int 0, .object [
      ("from", .int 5),
      ("to", .str "1.2.7"),
      ("amount", .object [("amount", .str "-1"), ("asset_id", .int 0)]),
      ("extensions", .null)]]]),
    ("extensions", .null)]

/-- The canonical value of `feelessTransaction`. -/
def canonicalTransaction : Value :=
  .object [
    ("ref_block_num", .int 7),
    ("ref_block_prefix", .int 4294967295),
    ("expiration", .int 4294967295),
    ("operations", .array [.array [.int 0, .object [
      ("fee", .object [("amount", .int 0), ("asset_id", .str "1.3.0")]),
      ("from", .str "1.2.5"),
      ("to", .str "1.2.7"),
      ("amount", .object [("amount", .int (-1)), ("asset_id", .str "1.3.0")]),
      ("extensions", .array [])]]]),
    ("extensions", .array [])]

theorem normalize_feelessTransaction :
    normalize .live (Protocol.feeEstimatingTransaction {}) feelessTransaction =
      .ok canonicalTransaction := by
  cbv

theorem normalize_json_canonicalTransaction :
    ∃ j, render .live (Protocol.feeEstimatingTransaction {}) canonicalTransaction = .ok j ∧
      normalize .live (Protocol.feeEstimatingTransaction {})
          (.ofJson canonicalTransaction.toJson) =
        .ok canonicalTransaction ∧
      normalize .live (Protocol.feeEstimatingTransaction {}) (.ofJson j) =
        .ok canonicalTransaction := by
  have hmem : ("transaction_unrequired_fee", Protocol.feeEstimatingTransaction {}) ∈
      Protocol.codecs {} := by simp [Protocol.codecs]
  obtain ⟨⟨j, hj, hjson, _⟩, hkept⟩ :=
    normalize_json (Protocol.distinctNames_of_mem_codecs {} hmem) normalize_feelessTransaction
  obtain ⟨hrendered, hwritten⟩ := hjson (hkept _)
  exact ⟨j, hj, hwritten, hrendered⟩

/-- An operation without any fields. -/
def Registries.voidOperation : Registries := fun _ => .installed [(0, .void)]

/-- An operation whose fee is nothing at all, or not even that. -/
def Registries.optionalVoidFee : Registries :=
  fun _ => .installed [(0, record [("fee", .optional .void)])]

/-- The payload of a void operation, which is nothing, becomes an empty object,
    and an object is given a fee.  A fee that is given and becomes null counts as
    none, so that a zero fee is filled into either text, which is not nothing. -/
theorem normalize_json_voidOperation_voidFee :
    (DistinctNames Registries.voidOperation (Protocol.feeEstimatingOperation {}) ∧
      normalize Registries.voidOperation (Protocol.feeEstimatingOperation {})
          (.array [.int 0, .null]) =
        .ok (.array [.int 0, .null]) ∧
      render Registries.voidOperation (Protocol.feeEstimatingOperation {})
          (.array [.int 0, .null]) =
        .ok (.arr [.int 0, .obj []]) ∧
      normalize Registries.voidOperation (Protocol.feeEstimatingOperation {})
          (.ofJson (.arr [.int 0, .obj []])) ≠
        .ok (.array [.int 0, .null])) ∧
    DistinctNames Registries.optionalVoidFee (Protocol.feeEstimatingOperation {}) ∧
      normalize Registries.optionalVoidFee (Protocol.feeEstimatingOperation {})
          (.array [.int 0, .object [("fee", .object [])]]) =
        .ok (.array [.int 0, .object [("fee", .null)]]) ∧
      render Registries.optionalVoidFee (Protocol.feeEstimatingOperation {})
          (.array [.int 0, .object [("fee", .null)]]) =
        .ok (.arr [.int 0, .obj []]) ∧
      normalize Registries.optionalVoidFee (Protocol.feeEstimatingOperation {})
          (.ofJson (.arr [.int 0, .obj []])) ≠
        .ok (.array [.int 0, .object [("fee", .null)]]) ∧
      normalize Registries.optionalVoidFee (Protocol.feeEstimatingOperation {})
          (.ofJson (Value.array [.int 0, .object [("fee", .null)]]).toJson) ≠
        .ok (.array [.int 0, .object [("fee", .null)]]) := by
  refine ⟨⟨fun d hd => nodup_of_wellFormed (hd.passes ?_ rfl), rfl, rfl, ?_⟩,
    fun d hd => nodup_of_wellFormed (hd.passes ?_ rfl), rfl, by cbv, ?_, ?_⟩
  · intro id table h
    obtain rfl := Except.ok.inj h
    rfl
  · intro h
    cases h
  · intro id table h
    obtain rfl := Except.ok.inj h
    rfl
  · intro h
    cases h
  · intro h
    cases h

end ChainCodec.Codec
