import ChainCodec.Proofs.Extension
import ChainCodec.Proofs.Idempotence
import ChainCodec.Proofs.Laziness

/-! # The bytes of a fee

    Every operation starts with its fee, and a struct writes its fields one after
    the other.  So the bytes of an operation are its id, the bytes of the fee and
    a rest that is the same for every fee: `Protocol.serialize_paying_eq_ok`.

    A fee takes eight bytes for the amount, and then as many as the instance of
    its asset needs.  Estimating a fee with an amount of zero gives the size of
    the operation up to this. -/

namespace ChainCodec

theorem Record.restrict_insert {α : Type} {names : List String} {name : String} (a : α)
    (record : Record α) (h : name ∉ names) :
    restrict names (insert name a record) = restrict names record := by
  have hdropped (b : α) (record : Record α) :
      restrict names ((name, b) :: record) = restrict names record := by
    simp [restrict, h]
  induction record with
  | nil => exact hdropped a []
  | cons f record ih =>
    obtain ⟨n, b⟩ := f
    by_cases hn : n = name
    · subst hn
      rw [insert, if_pos rfl, hdropped, hdropped]
    · rw [insert, if_neg hn]
      simp only [restrict, List.filter_cons] at ih ⊢
      rw [ih]

namespace Codec

variable {env : Registries} {name : String} {c : Codec} {more : List (String × Codec)}
  {fields : Record Value} {fee fee' raw raw' w : Value} {b : Bytes}

/-! ## The first field -/

theorem normalize_single_eq_ok :
    normalize env (record [(name, c)]) (ownPart [(name, c)] fields) = .ok raw ↔
      ∃ w, normalize env c (Value.field fields name) = .ok w ∧ raw = .object [(name, w)] := by
  have hdistinct : (([(name, c)] : List (String × Codec)).map Prod.fst).Nodup :=
    List.nodup_singleton name
  rw [normalize_restrict_eq_ok hdistinct]
  constructor
  · rintro ⟨_, hraws, rfl⟩
    cases hraws with
    | cons hf hnil =>
      cases hnil
      exact ⟨_, hf.2, congrArg (fun f => Value.object [f]) (Prod.ext hf.1 rfl)⟩
  · rintro ⟨w, hw, rfl⟩
    exact ⟨_, .cons ⟨rfl, hw⟩ .nil, rfl⟩

theorem encode_single_eq_ok :
    encode env (record [(name, c)]) (.object [(name, w)]) = .ok b ↔ encode env c w = .ok b := by
  have hfield : Value.field [(name, w)] name = w := by
    simp [Value.field, Record.get?_cons]
  rw [record, encode_struct_eq_ok]
  constructor
  · rintro ⟨parts, hparts, rfl⟩
    cases hparts with
    | cons hb hnil =>
      cases hnil
      rwa [List.flatten_singleton, ← hfield]
  · intro hb
    exact ⟨[b], .cons (hfield.symm ▸ hb) .nil, (List.flatten_singleton).symm⟩

/-- A struct of one field has the bytes of this field. -/
theorem serialize_single_eq_ok :
    serialize env (record [(name, c)]) (ownPart [(name, c)] fields) = .ok b ↔
      serialize env c (Value.field fields name) = .ok b := by
  simp only [serialize, Except.bind_eq_ok, normalize_single_eq_ok]
  constructor
  · rintro ⟨_, ⟨w, hw, rfl⟩, hb⟩
    exact ⟨w, hw, encode_single_eq_ok.1 hb⟩
  · rintro ⟨w, hw, hb⟩
    exact ⟨_, ⟨w, hw, rfl⟩, encode_single_eq_ok.2 hb⟩

section Insert

variable (hdistinct : (([(name, c)] ++ more).map Prod.fst).Nodup)
  (h : normalize env ((record [(name, c)]).extend more)
    (.object (Record.insert name fee fields)) = .ok raw)

include hdistinct h

/-- What is put into the first field is looked at by the codec of this field. -/
theorem exists_normalize_insert : ∃ w, normalize env c fee = .ok w := by
  obtain ⟨_, _, _, hfirst, _⟩ := (normalize_extend_eq_ok hdistinct rfl).1 h
  obtain ⟨w, hw, _⟩ := normalize_single_eq_ok.1 hfirst
  rw [Value.field, Record.get?_insert_self, Option.getD_some] at hw
  exact ⟨w, hw⟩

/-- Behind the bytes of the first field nothing depends on it. -/
theorem serialize_insert_eq_ok :
    serialize env ((record [(name, c)]).extend more)
        (.object (Record.insert name fee fields)) = .ok b ↔
      ∃ as rest, serialize env c fee = .ok as ∧
        serialize env (record more) (ownPart more fields) = .ok rest ∧ b = as ++ rest := by
  have hmore : name ∉ more.map Prod.fst := (List.nodup_cons.1 hdistinct).1
  have hrest : ownPart more (Record.insert name fee fields) = ownPart more fields :=
    congrArg Value.object (Record.restrict_insert fee fields hmore)
  rw [serialize_extend hdistinct rfl h, hrest]
  simp only [Except.bind_eq_ok, Except.pure_eq_ok, serialize_single_eq_ok, Value.field,
    Record.get?_insert_self, Option.getD_some]
  constructor
  · rintro ⟨as, has, rest, hrest, rfl⟩
    exact ⟨as, rest, has, hrest, rfl⟩
  · rintro ⟨as, rest, has, hrest, rfl⟩
    exact ⟨as, has, rest, hrest, rfl⟩

end Insert

end Codec

/-! ## The fee of an operation -/

open Codec

/-- An operation with these fields. -/
def OperationId.withFields (id : OperationId) (fields : Record Value) : Value :=
  .array [.int id.code.toNat, .object fields]

/-- The operation with these fields and this fee. -/
def OperationId.paying (id : OperationId) (fee : Value) (fields : Record Value) : Value :=
  id.withFields (Record.insert Fee.fieldName fee fields)

namespace Protocol

variable {p : Protocol} {id : OperationId} {fields : Record Value} {fee raw : Value} {b : Bytes}

theorem lookup_operationTable (p : Protocol) (id : OperationId) :
    (Schema.operationTable p.registry).lookup id.code = some (p.operationFields id) := by
  cases id <;> rfl

theorem distinctNames_operation (p : Protocol) : DistinctNames .live p.operation := by
  have hmem : ("operation", p.operation) ∈ p.codecs := by simp [codecs]
  exact p.distinctNames_of_mem_codecs hmem

theorem nodup_operationFields (p : Protocol) (id : OperationId) :
    (p.operationFields id).fieldNames.Nodup := by
  have hcase := mem_of_lookup (p.lookup_operationTable id)
  exact p.distinctNames_operation.inside (.operation rfl hcase) _ (.refl _)

theorem normalize_withFields_eq_ok :
    normalize .live p.operation (id.withFields fields) = .ok raw ↔
      ∃ w, normalize .live (p.operationFields id) (.object fields) = .ok w ∧
        raw = .array [.int id.code.toNat, w] := by
  have hinput : operationInput p.operationLink (id.withFields fields) = id.withFields fields := rfl
  rw [operation, normalize_operation_eq_ok, hinput]
  constructor
  · rintro ⟨_, htable, h⟩
    obtain rfl := Except.ok.inj htable
    obtain ⟨t, payload, tag, c, w, hp, htag, hcase, hw, rfl⟩ := normalize_variant_eq_ok.1 h
    obtain ⟨rfl, rfl⟩ := Prod.mk.inj (Option.some.inj hp)
    obtain rfl := Except.ok.inj ((Check.tag_uint32 id.code).symm.trans htag)
    obtain rfl := Option.some.inj ((p.lookup_operationTable id).symm.trans hcase)
    exact ⟨w, hw, rfl⟩
  · rintro ⟨w, hw, rfl⟩
    exact ⟨_, rfl, Respells.normalize_variant (p.lookup_operationTable id) hw⟩

theorem serialize_withFields_eq_ok :
    serialize .live p.operation (id.withFields fields) = .ok b ↔
      ∃ bs, serialize .live (p.operationFields id) (.object fields) = .ok bs ∧
        b = Varint.encode id.code ++ bs := by
  have hencode (w : Value) :
      encode .live p.operation (.array [.int id.code.toNat, w]) = .ok b ↔
        ∃ bs, encode .live (p.operationFields id) w = .ok bs ∧ b = Varint.encode id.code ++ bs :=
    encode_operation_eq_ok rfl (p.lookup_operationTable id)
  simp only [serialize, Except.bind_eq_ok, normalize_withFields_eq_ok]
  constructor
  · rintro ⟨_, ⟨w, hw, rfl⟩, hb⟩
    obtain ⟨bs, hbs, rfl⟩ := (hencode w).1 hb
    exact ⟨bs, ⟨w, hw, hbs⟩, rfl⟩
  · rintro ⟨bs, ⟨w, hw, hbs⟩, rfl⟩
    exact ⟨_, ⟨w, hw, rfl⟩, (hencode w).2 ⟨bs, hbs, rfl⟩⟩

/-- The fields of an operation behind its fee. -/
def otherFields (p : Protocol) (id : OperationId) : List (String × Codec) :=
  (p.operationFields id).fields.tail

/-- The bytes behind the fee are those of a struct without a fee. -/
theorem serialize_paying_eq_ok
    (h : normalize .live p.operation (id.paying fee fields) = .ok raw) :
    serialize .live p.operation (id.paying fee fields) = .ok b ↔
      ∃ as rest, serialize .live Schema.asset fee = .ok as ∧
        serialize .live (record (p.otherFields id)) (ownPart (p.otherFields id) fields) =
          .ok rest ∧
        b = Varint.encode id.code ++ (as ++ rest) := by
  obtain ⟨w, hw, _⟩ := normalize_withFields_eq_ok.1 h
  rw [OperationId.paying, serialize_withFields_eq_ok]
  have hinsert (bs : Bytes) := serialize_insert_eq_ok (b := bs) (p.nodup_operationFields id) hw
  constructor
  · rintro ⟨bs, hbs, rfl⟩
    obtain ⟨as, rest, has, hrest, rfl⟩ := (hinsert bs).1 hbs
    exact ⟨as, rest, has, hrest, rfl⟩
  · rintro ⟨as, rest, has, hrest, rfl⟩
    exact ⟨_, (hinsert _).2 ⟨as, rest, has, hrest, rfl⟩, rfl⟩

end Protocol

/-! ## Amounts -/

/-- The fee is an amount of the asset with this instance, and these are its
    bytes. -/
structure Fee.Segment (fee : Value) (inst : UInt32) (bs : Bytes) : Prop where
  exists_normalize : ∃ amount : Int, normalize .live Schema.asset fee = .ok (.object [
    ("amount", .int amount),
    ("asset_id", .str (ObjectId.render
      ⟨ReservedSpace.protocol.code, ProtocolType.asset.code, inst.toUInt64⟩))])
  serialize_eq : serialize .live Schema.asset fee = .ok bs
  length_eq : bs.length = 8 + (Varint.encode inst).length

namespace Codec

variable {env : Registries} {P : Codec → Value → Prop} {v : Value}

theorem Shaped.exists_int {t : IntType} (h : Shaped env P (.int t) v) :
    ∃ n, v = .int n ∧
      encode env (.int t) v = .ok (LittleEndian.encode t.width.bytes (t.toBits n)) := by
  cases h with
  | int _ hlow hhigh => exact ⟨_, rfl, encode_int hlow hhigh⟩

theorem Shaped.exists_instance {space type : UInt8} (h : Shaped env P (.objectId space type []) v) :
    ∃ inst : UInt32, v = .str (ObjectId.render ⟨space, type, inst.toUInt64⟩) ∧
      encode env (.objectId space type []) v = .ok (Varint.encode inst) := by
  cases h with
  | objectId _ hspace htype hinst =>
    refine ⟨UInt32.ofNat _, ?_, encode_objectId hspace htype hinst⟩
    rw [← ObjectId.eq_of_instance hspace (List.mem_singleton.1 htype) hinst]

end Codec

/-- Whatever is accepted as a fee has bytes. -/
theorem Fee.exists_segment {fee raw : Value} (h : normalize .live Schema.asset fee = .ok raw) :
    ∃ inst bs, Fee.Segment fee inst bs := by
  have hnames : DistinctNames .live Schema.asset := fun _ hd =>
    nodup_of_wellFormed (hd.passes Registries.wellFormed_live rfl)
  cases shaped_of_normalize hnames h with
  | @struct _ _ raws _ hdistinct hkeys hfields =>
    obtain ⟨amount, hamount, hleft⟩ := (hfields ("amount", i64) (by simp)).exists_int
    obtain ⟨inst, hinst, hright⟩ :=
      (hfields ("asset_id", Schema.assetId) (by simp)).exists_instance
    have hraws := Value.eq_fields_of_keys hkeys hdistinct
    simp only [List.map_cons, List.map_nil, hamount, hinst] at hraws
    have hencode : encode .live Schema.asset (.object raws) =
        .ok (LittleEndian.encode 8 (IntType.toBits ⟨true, .w64⟩ amount) ++ Varint.encode inst) :=
      encode_struct_eq_ok.2 ⟨[_, _], .cons hleft (.cons hright .nil), by simp; rfl⟩
    refine ⟨inst, _, ⟨amount, hraws ▸ h⟩, (serialize_of_normalize h).trans hencode, ?_⟩
    rw [List.length_append, LittleEndian.length_encode]

/-! ## One rest for all fees -/

namespace Protocol

variable {p : Protocol} {id : OperationId} {fields : Record Value} {fee raw : Value}

theorem exists_segment_of_normalize
    (h : normalize .live p.operation (id.paying fee fields) = .ok raw) :
    ∃ inst bs, Fee.Segment fee inst bs := by
  obtain ⟨w, hw, _⟩ := normalize_withFields_eq_ok.1 h
  obtain ⟨_, hfee⟩ := exists_normalize_insert (p.nodup_operationFields id) hw
  exact Fee.exists_segment hfee

theorem normalize_feeEstimatingOperation (p : Protocol) (id : OperationId)
    (h : (Value.field fields Fee.fieldName).isNull = true) :
    normalize .live p.feeEstimatingOperation (id.withFields fields) =
      normalize .live p.operation (id.paying (Fee.zero p.config.coreAssetId) fields) := by
  rw [feeEstimatingOperation]
  exact normalize_operation_of_feeless rfl rfl rfl h

/-- An operation that is accepted has bytes unless something in it is longer
    than 32 bits can count.  With every fee that is accepted these are its id,
    the bytes of the fee and one and the same rest; and so it is without a fee
    where fees are estimated, with the bytes of a fee of zero. -/
theorem fee_segment (p : Protocol) (id : OperationId) (fields : Record Value)
    (h : normalize .live p.operation (id.paying fee fields) = .ok raw) :
    ((∃ b, serialize .live p.operation (id.paying fee fields) = .ok b) ↔
      ∀ n d x, Part .live p.operation raw n d x → Fits d x) ∧
    ∀ b, serialize .live p.operation (id.paying fee fields) = .ok b →
      ∃ rest,
        (∀ fee' raw', normalize .live p.operation (id.paying fee' fields) = .ok raw' →
          ∃ inst as, Fee.Segment fee' inst as ∧
            serialize .live p.operation (id.paying fee' fields) =
              .ok (Varint.encode id.code ++ as ++ rest)) ∧
        ∀ raw', (Value.field fields Fee.fieldName).isNull = true →
          normalize .live p.feeEstimatingOperation (id.withFields fields) = .ok raw' →
            ∃ inst as, Fee.Segment (Fee.zero p.config.coreAssetId) inst as ∧
              serialize .live p.feeEstimatingOperation (id.withFields fields) =
                .ok (Varint.encode id.code ++ as ++ rest) := by
  refine ⟨?_, fun b hb => ?_⟩
  · have hshape := shaped_of_normalize p.distinctNames_operation h
    rw [serialize_of_normalize h, exists_encode_iff hshape]
    exact ⟨fun hfits n d x hx => (hfits.part hx).holds, hshape.of_parts⟩
  · obtain ⟨_, rest, _, hrest, _⟩ := (serialize_paying_eq_ok h).1 hb
    have hall : ∀ fee' raw', normalize .live p.operation (id.paying fee' fields) = .ok raw' →
        ∃ inst as, Fee.Segment fee' inst as ∧
          serialize .live p.operation (id.paying fee' fields) =
            .ok (Varint.encode id.code ++ as ++ rest) := by
      intro fee' raw' h'
      obtain ⟨inst, as, hsegment⟩ := exists_segment_of_normalize h'
      refine ⟨inst, as, hsegment, (serialize_paying_eq_ok h').2 ?_⟩
      exact ⟨as, rest, hsegment.serialize_eq, hrest, List.append_assoc _ _ _⟩
    refine ⟨rest, hall, fun raw' hnull h' => ?_⟩
    have hsame := p.normalize_feeEstimatingOperation id hnull
    rw [serialize, hsame]
    exact hall _ raw' (hsame.symm.trans h')

end Protocol

/-- The fields of a transfer without a fee. -/
def transferFields : Record Value :=
  [("from", .str "1.2.5"),
   ("to", .str "1.2.7"),
   ("amount", .object [("amount", .int 12), ("asset_id", .str "1.3.0")]),
   ("extensions", .array [])]

/-- A fee in an asset whose instance takes two bytes. -/
def foreignFee : Value := .object [("amount", .int 9), ("asset_id", .str "1.3.200")]

theorem Protocol.fee_segment_transferFields :
    ∃ rest,
      serialize .live (Protocol.operation {}) (OperationId.transfer.paying foreignFee
          transferFields) =
        .ok (Varint.encode 0 ++ [9, 0, 0, 0, 0, 0, 0, 0, 200, 1] ++ rest) ∧
      serialize .live (Protocol.feeEstimatingOperation {})
          (OperationId.transfer.withFields transferFields) =
        .ok (Varint.encode 0 ++ [0, 0, 0, 0, 0, 0, 0, 0, 0] ++ rest) := by
  -- Only the fields of a transfer are evaluated, not the table of operations.
  have hnormal : normalize .live (Protocol.operation {})
      (OperationId.transfer.paying foreignFee transferFields) =
        .ok (OperationId.transfer.withFields (("fee", foreignFee) :: transferFields)) :=
    normalize_withFields_eq_ok.2 ⟨_, by cbv, rfl⟩
  have hestimate : normalize .live (Protocol.feeEstimatingOperation {})
      (OperationId.transfer.withFields transferFields) =
        .ok (OperationId.transfer.withFields
          (("fee", .object [("amount", .int 0), ("asset_id", .str "1.3.0")]) ::
            transferFields)) :=
    (normalize_feeEstimatingOperation {} .transfer rfl).trans
      (normalize_withFields_eq_ok.2 ⟨_, by cbv, rfl⟩)
  have hb : serialize .live (Protocol.operation {})
      (OperationId.transfer.paying foreignFee transferFields) =
        .ok (Varint.encode 0 ++
          [9, 0, 0, 0, 0, 0, 0, 0, 200, 1, 5, 7, 12, 0, 0, 0, 0, 0, 0, 0, 0, 0]) :=
    serialize_withFields_eq_ok.2 ⟨_, by cbv, rfl⟩
  obtain ⟨rest, hpaid, hestimated⟩ := (fee_segment {} .transfer transferFields hnormal).2 _ hb
  obtain ⟨_, as, hsegment, hserialize⟩ := hpaid foreignFee _ hnormal
  obtain ⟨_, as', hsegment', hserialize'⟩ := hestimated _ rfl hestimate
  have has : serialize .live Schema.asset foreignFee =
      .ok [9, 0, 0, 0, 0, 0, 0, 0, 200, 1] := by
    cbv
  have has' : serialize .live Schema.asset (Fee.zero "1.3.0") =
      .ok [0, 0, 0, 0, 0, 0, 0, 0, 0] := by
    cbv
  obtain rfl := Except.ok.inj (has.symm.trans hsegment.serialize_eq)
  obtain rfl := Except.ok.inj (has'.symm.trans hsegment'.serialize_eq)
  exact ⟨rest, hserialize, hserialize'⟩

end ChainCodec
