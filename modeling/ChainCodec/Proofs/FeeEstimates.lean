import ChainCodec.Proofs.Laziness
import Mathlib

/-! # Estimating fees is giving fees of zero

    A transaction whose fees are to be estimated is normalized as one in which
    every operation that has no fee is given one of zero:
    `normalize_feeEstimatingTransaction`.  What the fees are given to is said
    by `Transaction.withZeroFees`, which knows nothing of codecs: the
    operations of the transaction, and not those inside them.  The operations
    of a proposal have to bring their fees. -/

namespace ChainCodec

open Codec

/-! ## Fees of zero -/

/-- The operation with a fee of zero, if it has fields and none of them is a
    fee. -/
def Fee.orZero (asset : String) : Value → Value
  | .array [id, .object fields] =>
      if (Value.field fields fieldName).isNull then
        .array [id, .object (Record.insert fieldName (zero asset) fields)]
      else .array [id, .object fields]
  | v => v

/-- The value is an operation that has a fee. -/
def Fee.StatedIn (v : Value) : Prop :=
  ∃ id payload fields, v.resolve.asPair? = some (id, payload) ∧
    payload.resolve = .object fields ∧ (Value.field fields fieldName).resolve.isNull = false

namespace Transaction

def operationsName : String := "operations"

/-- The transaction with a fee of zero in each operation that has none. -/
def withZeroFees (asset : String) : Value → Value
  | .object fields =>
      match Value.field fields operationsName with
      | .array operations =>
          let operations := operations.map (Fee.orZero asset)
          .object (Record.insert operationsName (.array operations) fields)
      | _ => .object fields
  | v => v

end Transaction

/-! ## Operations -/

namespace Codec

variable {env : Registries} {c c' : Codec} {v w raw : Value}

/-- In a literal operation there is nothing to resolve on the way to the fee. -/
theorem fillIn_of_literal (asset : String) (h : v.Literal) :
    Fee.fillIn asset v = Fee.orZero asset v := by
  fun_cases Fee.orZero asset v with
  | case1 id fields hnull =>
    have hgiven : ¬ Fee.isGiven fields = true := by
      rw [isGiven_iff, hnull]
      decide
    show Value.array [id, .object (Fee.complete asset fields)] = _
    rw [Fee.complete, if_neg hgiven]
  | case2 id fields hnull =>
    have hgiven : Fee.isGiven fields = true := isGiven_iff.2 (by simpa using hnull)
    show Value.array [id, .object (Fee.complete asset fields)] = _
    rw [Fee.complete, if_pos hgiven]
  | case3 w hshape =>
    unfold Fee.fillIn
    cases hp : v.asPair? with
    | none => rfl
    | some p =>
      obtain ⟨id, payload⟩ := p
      obtain rfl := Value.asPair?_eq_some.1 hp
      have hpayload : payload.Literal := h.of_mem (by simp)
      dsimp only
      rw [hpayload.resolve_eq]
      split
      · rename_i fields
        exact absurd rfl (hshape id fields)
      · rfl

/-- Filling in fees is giving fees of zero. -/
theorem normalize_operation_orZero (link : OperationLink) (hzero : link.zeroFee = true)
    (h : v.Literal) :
    normalize env (.operation link) v =
      normalize env (.operation { link with zeroFee := false }) (Fee.orZero link.feeAsset v) := by
  have hinput : operationInput link v = Fee.orZero link.feeAsset v := by
    rw [operationInput, if_pos hzero, h.resolve_eq, fillIn_of_literal _ h]
  rw [normalize_operation, normalize_operation, hinput]
  rfl

/-! ## Transactions -/

theorem literal_field {fields : Record Value} (h : ∀ f ∈ fields, f.2.Literal) (name : String) :
    (Value.field fields name).Literal := by
  unfold Value.field
  cases hget : Record.get? name fields with
  | none => exact .null
  | some v => exact h (name, v) (mem_of_lookup hget)

theorem normalize_vector_array (items : List Value) :
    normalize env (.vector c) (.array items) = (do
      let raws ← traverseFrom (fun i item =>
        Check.within (.element i) (normalize env c item)) 0 items
      pure (.array raws)) := by
  simp only [normalize, normalizeWith]
  rfl

/-- What is not an array is refused for that. -/
theorem normalize_vector_of_not_array (h : ∀ items, v.resolve ≠ .array items) :
    normalize env (.vector c) v = normalize env (.vector c') v := by
  simp only [normalize, normalizeWith]
  cases hv : v.resolve with
  | array items => exact absurd hv (h items)
  | _ => rfl

theorem normalize_vector_map {g : Value → Value} {items : List Value}
    (h : ∀ v ∈ items, normalize env c v = normalize env c' (g v)) :
    normalize env (.vector c) (.array items) =
      normalize env (.vector c') (.array (items.map g)) := by
  have htraverse : traverseFrom (fun i item =>
      Check.within (.element i) (normalize env c item)) 0 items =
        traverseFrom (fun i item => Check.within (.element i) (normalize env c' (g item))) 0 items := by
    apply traverseFrom_congr
    intro i item hitem
    rw [h item hitem]
  rw [normalize_vector_array, normalize_vector_array, htraverse, traverseFrom_map_items]

/-- Structs with fields of the same names that are normalized alike. -/
theorem normalize_struct_congr {fields fields' : List (String × Codec)} {ignoreUnknown : Bool}
    {record record' : Record Value} (hkeys : Record.keys record = Record.keys record')
    (h : List.Forall₂ (fun f f' => f.1 = f'.1 ∧ normalize env f.2 (Value.field record f.1) =
      normalize env f'.2 (Value.field record' f'.1)) fields fields') :
    normalize env (.struct fields ignoreUnknown) (.object record) =
      normalize env (.struct fields' ignoreUnknown) (.object record') := by
  have hnames : fields.map Prod.fst = fields'.map Prod.fst := by
    rw [← List.forall₂_eq_eq_eq, List.forall₂_map_left_iff, List.forall₂_map_right_iff]
    exact h.imp fun _ _ hf => hf.1
  have hknown : Check.keys ignoreUnknown (fields.map Prod.fst) record =
      Check.keys ignoreUnknown (fields'.map Prod.fst) record' := by
    rw [hnames]
    unfold Check.keys Check.knownKeys
    rw [hkeys]
  simp only [normalize, normalizeWith]
  show (do
    Check.keys ignoreUnknown (fields.map Prod.fst) record
    let raws ← normalizeFields _ _ fields record
    pure (Value.object (Record.ofList raws))) = _
  rw [hknown, normalizeFields_congr_field h]
  rfl

end Codec

/-- Transactions that differ in their operations only. -/
theorem normalize_transaction_congr {env : Registries} {c c' : Codec}
    {fields fields' : Record Value}
    (hkeys : Record.keys fields = Record.keys fields')
    (hother : ∀ name, Transaction.operationsName ≠ name →
      Value.field fields name = Value.field fields' name)
    (h : normalize env (.vector c) (Value.field fields Transaction.operationsName) =
      normalize env (.vector c') (Value.field fields' Transaction.operationsName)) :
    normalize env (Schema.transaction c) (.object fields) =
      normalize env (Schema.transaction c') (.object fields') := by
  apply normalize_struct_congr hkeys
  apply List.Forall₂.cons ⟨rfl, by rw [hother _ (by decide)]⟩
  apply List.Forall₂.cons ⟨rfl, by rw [hother _ (by decide)]⟩
  apply List.Forall₂.cons ⟨rfl, by rw [hother _ (by decide)]⟩
  apply List.Forall₂.cons ⟨rfl, h⟩
  apply List.Forall₂.cons ⟨rfl, by rw [hother _ (by decide)]⟩
  exact .nil

/-- Fee estimation is normalization with fees of zero. -/
theorem normalize_feeEstimatingTransaction (env : Registries) (p : Protocol) {tx : Value}
    (h : tx.Literal) :
    normalize env p.feeEstimatingTransaction tx =
      normalize env p.transaction (Transaction.withZeroFees p.config.coreAssetId tx) := by
  cases h with
  | null | bool _ | int _ | str _ | bytes _ | array _ =>
    -- Neither of them is an object.
    simp only [Transaction.withZeroFees]
    rfl
  | @object fields hfields =>
    have hliteral := literal_field hfields Transaction.operationsName
    unfold Transaction.withZeroFees
    dsimp only
    split
    · rename_i operations hfield
      have hmem : Transaction.operationsName ∈ Record.keys fields := by
        by_contra hmem
        rw [Value.field_eq_null hmem] at hfield
        cases hfield
      apply normalize_transaction_congr
      · exact (Record.keys_insert_of_mem _ hmem).symm
      · intro name hne
        exact (Value.field_insert_of_ne _ hne).symm
      · rw [hfield] at hliteral ⊢
        rw [Value.field, Record.get?_insert_self, Option.getD_some]
        apply normalize_vector_map
        intro v hv
        exact normalize_operation_orZero { p.operationLink with zeroFee := true } rfl
          (hliteral.of_mem hv)
    · rename_i hfield
      apply normalize_transaction_congr rfl fun _ _ => rfl
      apply normalize_vector_of_not_array
      rw [hliteral.resolve_eq]
      exact hfield

/-! ## Nested operations -/

namespace Codec

variable {c d : Codec} {v u w raw : Value}

/-- Every operation of a protocol requires a fee that is an amount. -/
theorem statedIn_of_normalize {link : OperationLink} (hzero : link.zeroFee = false)
    (h : normalize .live (.operation link) w = .ok raw) : Fee.StatedIn w := by
  have hinput : operationInput link w = w := by
    rw [operationInput, hzero]
    rfl
  obtain ⟨table, htable, h⟩ := normalize_operation_eq_ok.1 h
  obtain rfl := Except.ok.inj htable
  rw [hinput] at h
  obtain ⟨t, payload, tag, c, raw', hp, _, hcase, hraw, _⟩ := normalize_variant_eq_ok.1 h
  obtain ⟨op, _, he⟩ := List.mem_map.1 (mem_of_lookup hcase)
  cases he
  -- The fee comes first, and it is not optional.
  simp only [normalize, record, normalizeWith, Except.bind_eq_ok, Check.object_eq_ok] at hraw
  obtain ⟨fields, hpayload, _, _, raws, hraws, _⟩ := hraw
  refine ⟨t, payload, fields, hp, hpayload, ?_⟩
  have hmem : (Fee.fieldName, Schema.asset) ∈ Schema.fieldsOf link.registry.config
      (record [("op", Schema.nestedOperation link.registry)]) op := by
    simp [Schema.fieldsOf, Fee.fieldName]
  obtain ⟨raw, _, _, hfee⟩ := forall₂_mem_left (normalizeFields_eq_ok.1 hraws) hmem
  simp only [Schema.asset, record, normalizeWith, Except.bind_eq_ok, Check.object_eq_ok] at hfee
  obtain ⟨amount, hamount, _⟩ := hfee
  rw [hamount]
  rfl

/-- What lies inside an operation of a protocol requires its fees. -/
theorem statedIn_of_visits {link nested : OperationLink}
    (hu : Source .live (.operation link) v d u) (hw : Visits .live d u (.operation nested) w)
    (hv : normalize .live (.operation link) v = .ok raw) : Fee.StatedIn w := by
  have hzero : nested.zeroFee = false := zeroFee_eq_false_of_reaches hu.requiresFee hw.reaches
  obtain ⟨raw', hraw'⟩ := (Visits.step hu hw).accepted hv
  exact statedIn_of_normalize hzero hraw'

end Codec

/-- A transaction whose fees are to be estimated is normalized, or refused, as
    one in which the operations that have no fee are given one of zero.  If it
    is accepted, all operations inside its operations have brought their
    fees. -/
theorem feeEstimates_eq_zeroFees (p : Protocol) {tx : Value} (h : tx.Literal) :
    (∀ env, normalize env p.feeEstimatingTransaction tx =
      normalize env p.transaction (Transaction.withZeroFees p.config.coreAssetId tx)) ∧
    ∀ raw, normalize .live p.feeEstimatingTransaction tx = .ok raw →
      ∀ v, Visits .live p.feeEstimatingTransaction tx p.feeEstimatingOperation v →
        ∀ d u, Source .live p.feeEstimatingOperation v d u →
          ∀ link w, Visits .live d u (.operation link) w → Fee.StatedIn w := by
  constructor
  · intro env
    exact normalize_feeEstimatingTransaction env p h
  · intro raw hraw v hv d u hu link w hw
    obtain ⟨raw', hraw'⟩ := hv.accepted hraw
    exact statedIn_of_visits hu hw hraw'

/-- A transfer with the given fee, if any. -/
def transferOf (fee : Record Value) : Value :=
  .array [.int 0, .object (fee ++ [
    ("from", .str "1.2.5"),
    ("to", .str "1.2.7"),
    ("amount", .object [("amount", .int 12), ("asset_id", .str "1.3.0")]),
    ("extensions", .array [])])]

/-- A proposal of an operation, with the given fee, if any. -/
def proposalOf (fee : Record Value) (operation : Value) : Value :=
  .array [.int 16, .object (fee ++ [
    ("fee_paying_account", .str "1.2.5"),
    ("expiration_time", .int 7),
    ("proposed_ops", .array [.object [("op", operation)]]),
    ("review_period_seconds", .null),
    ("extensions", .array [])])]

def feeOf (amount : Int) : Record Value :=
  [("fee", .object [("amount", .int amount), ("asset_id", .str "1.3.0")])]

def transactionOf (operations : List Value) : Value :=
  .object [
    ("ref_block_num", .int 1),
    ("ref_block_prefix", .int 2),
    ("expiration", .int 3),
    ("operations", .array operations),
    ("extensions", .array [])]

/-- Transfers without a fee, with a null fee and with a fee, and a proposal of
    a transfer with a fee. -/
def mixedTransaction : Value :=
  transactionOf [transferOf [], transferOf [("fee", .null)], transferOf (feeOf 9),
    proposalOf [] (transferOf (feeOf 5))]

/-- The canonical value of `mixedTransaction` when fees are estimated. -/
def estimatedTransaction : Value :=
  transactionOf [transferOf (feeOf 0), transferOf (feeOf 0), transferOf (feeOf 9),
    proposalOf (feeOf 0) (transferOf (feeOf 5))]

theorem feeEstimates_eq_zeroFees_mixedTransaction :
    normalize .live (Protocol.feeEstimatingTransaction {}) mixedTransaction =
        .ok estimatedTransaction ∧
      Fee.StatedIn (transferOf (feeOf 5)) := by
  have hliteral : mixedTransaction.Literal := Value.literal_iff.2 rfl
  have h := feeEstimates_eq_zeroFees {} hliteral
  have hraw : normalize .live (Protocol.feeEstimatingTransaction {}) mixedTransaction =
      .ok estimatedTransaction := by
    rw [h.1]
    cbv
  refine ⟨hraw, ?_⟩
  -- The way to the proposal, and from there to the transfer inside.
  have hproposal : Visits .live (Protocol.feeEstimatingTransaction {}) mixedTransaction
      (Protocol.feeEstimatingOperation {}) (proposalOf [] (transferOf (feeOf 5))) := by
    apply Visits.step (.field rfl (List.mem_of_getElem? (i := 3) rfl))
    exact .step (.item rfl (List.mem_of_getElem? (i := 3) rfl)) .self
  apply h.2 _ hraw _ hproposal _ _ (.operand rfl rfl rfl rfl)
  apply Visits.step (.field rfl (List.mem_of_getElem? (i := 3) rfl))
  apply Visits.step (.item rfl (List.mem_of_getElem? (i := 0) rfl))
  exact .step (.field rfl (List.mem_of_getElem? (i := 0) rfl)) .self

end ChainCodec
