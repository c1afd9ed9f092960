import ChainCodec.Proofs.Collections
import ChainCodec.Proofs.WellFormed
import ChainCodec.Proofs.WireRoundTrip

/-! # Structs that extend others

    A struct that was extended takes an object in two parts, the fields that it
    had before and those that were added.  Each part is normalized and encoded
    by a struct of its own, and the bytes of the first come first:
    `normalize_extend_eq_ok` and `serialize_extend`.

    So what is signed of a transaction, and the header of a block, is found at
    the start of the longer messages, and can be read from there. -/

namespace ChainCodec

/-! ## Parts of records -/

namespace Record

variable {α : Type} {record record' : Record α} {names : List String} {name : String}

/-- The fields with certain names. -/
def restrict (names : List String) (record : Record α) : Record α :=
  record.filter fun f => names.contains f.1

theorem get?_restrict (h : name ∈ names) :
    get? name (restrict names record) = get? name record := by
  induction record with
  | nil => rfl
  | cons f record ih =>
    obtain ⟨n, a⟩ := f
    simp only [restrict, List.filter_cons] at ih ⊢
    by_cases hn : n = name
    · have hkept : names.contains n = true := List.contains_iff_mem.2 (hn ▸ h)
      rw [if_pos hkept, get?_cons, get?_cons, if_pos hn, if_pos hn]
    · rw [get?_cons, if_neg hn, ← ih]
      split
      · rw [get?_cons, if_neg hn]
      · rfl

theorem mem_of_mem_keys_restrict (h : name ∈ keys (restrict names record)) : name ∈ names := by
  obtain ⟨f, hf, rfl⟩ := List.mem_map.1 h
  exact List.contains_iff_mem.1 (List.mem_filter.1 hf).2

theorem get?_append_of_mem (h : name ∈ keys record) :
    get? name (record ++ record') = get? name record := by
  induction record with
  | nil => cases h
  | cons f record ih =>
    obtain ⟨n, a⟩ := f
    rw [List.cons_append, get?_cons, get?_cons]
    by_cases hn : n = name
    · rw [if_pos hn, if_pos hn]
    · have hrest : name ∈ keys record := (List.mem_cons.1 h).resolve_left fun e => hn e.symm
      rw [if_neg hn, if_neg hn, ih hrest]

theorem get?_append_of_not_mem (h : name ∉ keys record) :
    get? name (record ++ record') = get? name record' := by
  induction record with
  | nil => rfl
  | cons f record ih =>
    obtain ⟨n, a⟩ := f
    simp only [keys, List.map_cons, List.mem_cons, not_or] at h
    rw [List.cons_append, get?_cons, if_neg fun e => h.1 e.symm, ih h.2]

end Record

namespace Value

variable {record record' : Record Value} {names : List String} {name : String}

theorem field_restrict (h : name ∈ names) :
    field (Record.restrict names record) name = field record name := by
  rw [field, Record.get?_restrict h, field]

theorem field_append_of_mem (h : name ∈ Record.keys record) :
    field (record ++ record') name = field record name := by
  rw [field, Record.get?_append_of_mem h, field]

theorem field_append_of_not_mem (h : name ∉ Record.keys record) :
    field (record ++ record') name = field record' name := by
  rw [field, Record.get?_append_of_not_mem h, field]

/-- What follows a schema follows the fields that the schema gives. -/
theorem fieldsOf_append {α : Type} {R : String × α → Value → Prop}
    {schema more : List (String × α)} :
    FieldsOf R (schema ++ more) record ↔
      ∃ first second, FieldsOf R schema first ∧ FieldsOf R more second ∧
        record = first ++ second := by
  induction schema generalizing record with
  | nil =>
    constructor
    · intro h
      exact ⟨[], record, .nil, h, rfl⟩
    · intro h
      rcases h with ⟨_, second, ⟨⟩, h, rfl⟩
      exact h
  | cons f schema ih =>
    constructor
    · intro h
      cases h with
      | cons hf hrest =>
        obtain ⟨first, second, hfirst, hsecond, rfl⟩ := ih.1 hrest
        exact ⟨_ :: first, second, .cons hf hfirst, hsecond, rfl⟩
    · intro h
      rcases h with ⟨_, second, hfirst, hsecond, rfl⟩
      cases hfirst with
      | cons hf hrest => exact .cons hf (ih.2 ⟨_, second, hrest, hsecond, rfl⟩)

end Value

namespace Codec

variable {env : Registries} {fields more : List (String × Codec)} {v raw : Value}
  {object first second : Record Value}

/-- The part of an object that a struct names. -/
def ownPart (fields : List (String × Codec)) (object : Record Value) : Value :=
  .object (Record.restrict (fields.map Prod.fst) object)

/-! ## Writing fields -/

theorem writeFields_append (op : WriteOperation) (fields more : List (String × Codec))
    (object : Record Value) :
    writeFields op (fields ++ more) object = (do
      writeFields op fields object
      writeFields op more object) := by
  induction fields with
  | nil => simp [writeFields]
  | cons f rest ih => simp only [List.cons_append, writeFields, ih, bind_assoc]

theorem writeFields_eq_of_fields {op : WriteOperation} {object object' : Record Value}
    (h : ∀ f ∈ fields, Value.field object f.1 = Value.field object' f.1) :
    writeFields op fields object = writeFields op fields object' := by
  induction fields with
  | nil => simp only [writeFields]
  | cons f rest ih =>
    have hrest := ih fun g hg => h g (List.mem_cons_of_mem f hg)
    simp only [writeFields, hrest, h f List.mem_cons_self]

theorem encode_struct {ignoreUnknown : Bool} :
    encode env (.struct fields ignoreUnknown) (.object object) = Write.run
      (writeFields (fun link v => writeOperation env (v.arrayDepth + 1) link v) fields object) := by
  simp only [encode, write, writeWith]
  rw [Write.run_lift_bind, Except.bind_ok (Check.object_eq_ok.2 rfl)]

/-- The fields of both parts are written in their order. -/
theorem encode_struct_append {ignoreUnknown : Bool}
    (hfirst : Record.keys first = fields.map Prod.fst)
    (hdistinct : ((fields ++ more).map Prod.fst).Nodup) :
    encode env (.struct (fields ++ more) ignoreUnknown) (.object (first ++ second)) = (do
      let as ← encode env (record fields) (.object first)
      let bs ← encode env (record more) (.object second)
      pure (as ++ bs)) := by
  rw [List.map_append, List.nodup_append] at hdistinct
  have hleft : ∀ f ∈ fields,
      Value.field (first ++ second) f.1 = Value.field first f.1 := by
    intro f hf
    apply Value.field_append_of_mem
    rw [hfirst]
    exact List.mem_map_of_mem hf
  have hright : ∀ f ∈ more,
      Value.field (first ++ second) f.1 = Value.field second f.1 := by
    intro f hf
    apply Value.field_append_of_not_mem
    rw [hfirst]
    intro hmem
    exact hdistinct.2.2 f.1 hmem f.1 (List.mem_map_of_mem hf) rfl
  have happending (object : Record Value) := writeFields_appending (fun link v =>
    writeOperation_appending env (v.arrayDepth + 1) link v) more object
  rw [record, record, encode_struct, encode_struct, encode_struct, writeFields_append,
    Write.run_bind (fun _ => happending _) fun _ => rfl, writeFields_eq_of_fields hleft,
    writeFields_eq_of_fields hright]

/-! ## Normalizing and serializing -/

/-- The part of an object that a struct names is normalized field by field. -/
theorem normalize_restrict_eq_ok (hdistinct : (fields.map Prod.fst).Nodup) :
    normalize env (record fields) (ownPart fields object) = .ok raw ↔
      ∃ raws, Value.FieldsOf (fun f raw => normalize env f.2 (Value.field object f.1) = .ok raw)
        fields raws ∧ raw = .object raws := by
  have hkeys : Check.keys false (fields.map Prod.fst)
      (Record.restrict (fields.map Prod.fst) object) = .ok () :=
    Check.keys_eq_ok.2 (.inr fun _ => Record.mem_of_mem_keys_restrict)
  have hfields (raws : Record Value) :
      Value.FieldsOf (fun f raw => normalize env f.2
          (Value.field (Record.restrict (fields.map Prod.fst) object) f.1) = .ok raw) fields raws ↔
        Value.FieldsOf (fun f raw => normalize env f.2 (Value.field object f.1) = .ok raw)
          fields raws := by
    refine Value.fieldsOf_congr fun f hf raw => ?_
    rw [Value.field_restrict (List.mem_map_of_mem hf)]
  rw [record, ownPart, normalize_struct_object_eq_ok hdistinct]
  simp only [hkeys, hfields, true_and]

/-- An extended struct takes an object of which it knows all keys, if the two
    structs that it is made of take its two parts. -/
theorem normalize_extend_eq_ok (hdistinct : ((fields ++ more).map Prod.fst).Nodup)
    (hv : v.resolve = .object object) :
    normalize env ((record fields).extend more) v = .ok raw ↔
      (∀ name ∈ Record.keys object, name ∈ (fields ++ more).map Prod.fst) ∧
        ∃ first second,
          normalize env (record fields) (ownPart fields object) = .ok (.object first) ∧
            normalize env (record more) (ownPart more object) = .ok (.object second) ∧
            raw = .object (first ++ second) := by
  have hparts := hdistinct
  rw [List.map_append, List.nodup_append] at hparts
  -- Each part gives an object, with the fields of its own struct.
  have hleft : ∀ raws, normalize env (record fields) (ownPart fields object) = .ok (.object raws) ↔
      Value.FieldsOf (fun f raw => normalize env f.2 (Value.field object f.1) = .ok raw)
        fields raws := by
    intro raws
    simp only [normalize_restrict_eq_ok hparts.1, Value.object.injEq, exists_eq_right']
  have hright : ∀ raws, normalize env (record more) (ownPart more object) = .ok (.object raws) ↔
      Value.FieldsOf (fun f raw => normalize env f.2 (Value.field object f.1) = .ok raw)
        more raws := by
    intro raws
    simp only [normalize_restrict_eq_ok hparts.2.1, Value.object.injEq, exists_eq_right']
  have hextend : normalize env ((record fields).extend more) v =
      normalize env (.struct (fields ++ more) false) (.object object) := by
    rw [← normalize_resolve, hv]
    rfl
  rw [hextend, normalize_struct_object_eq_ok hdistinct, Check.keys_eq_ok]
  simp only [Bool.false_eq_true, false_or, Value.fieldsOf_append, hleft, hright]
  constructor
  · intro h
    rcases h with ⟨hkeys, _, ⟨first, second, hfirst, hsecond, rfl⟩, rfl⟩
    exact ⟨hkeys, first, second, hfirst, hsecond, rfl⟩
  · intro h
    rcases h with ⟨hkeys, first, second, hfirst, hsecond, rfl⟩
    exact ⟨hkeys, _, ⟨first, second, hfirst, hsecond, rfl⟩, rfl⟩

/-- What a struct gives is an object. -/
theorem exists_object_of_normalize (hdistinct : (fields.map Prod.fst).Nodup)
    (h : normalize env (record fields) (ownPart fields object) = .ok raw) :
    ∃ raws, Record.keys raws = fields.map Prod.fst ∧ raw = .object raws := by
  obtain ⟨raws, hraws, rfl⟩ := (normalize_restrict_eq_ok hdistinct).1 h
  exact ⟨raws, hraws.keys_eq, rfl⟩

/-- An object is accepted by an extended struct if it has no other keys and its
    two parts are accepted. -/
theorem exists_normalize_extend_iff (hdistinct : ((fields ++ more).map Prod.fst).Nodup)
    (hv : v.resolve = .object object) :
    (∃ raw, normalize env ((record fields).extend more) v = .ok raw) ↔
      (∀ name ∈ Record.keys object, name ∈ fields.map Prod.fst ∨ name ∈ more.map Prod.fst) ∧
        (∃ raw, normalize env (record fields) (ownPart fields object) = .ok raw) ∧
        ∃ raw, normalize env (record more) (ownPart more object) = .ok raw := by
  have hparts := hdistinct
  rw [List.map_append, List.nodup_append] at hparts
  simp only [normalize_extend_eq_ok hdistinct hv, List.map_append, List.mem_append]
  constructor
  · intro h
    rcases h with ⟨_, hkeys, first, second, hfirst, hsecond, _⟩
    exact ⟨hkeys, ⟨_, hfirst⟩, _, hsecond⟩
  · intro h
    rcases h with ⟨hkeys, ⟨_, hfirst⟩, _, hsecond⟩
    obtain ⟨first, _, rfl⟩ := exists_object_of_normalize hparts.1 hfirst
    obtain ⟨second, _, rfl⟩ := exists_object_of_normalize hparts.2.1 hsecond
    exact ⟨_, hkeys, first, second, hfirst, hsecond, rfl⟩

/-- What an extended struct accepts is serialized as its two parts, one after
    the other. -/
theorem serialize_extend (hdistinct : ((fields ++ more).map Prod.fst).Nodup)
    (hv : v.resolve = .object object)
    (hraw : normalize env ((record fields).extend more) v = .ok raw) :
    serialize env ((record fields).extend more) v = (do
      let as ← serialize env (record fields) (ownPart fields object)
      let bs ← serialize env (record more) (ownPart more object)
      pure (as ++ bs)) := by
  have hparts := hdistinct
  rw [List.map_append, List.nodup_append] at hparts
  obtain ⟨_, first, second, hfirst, hsecond, rfl⟩ := (normalize_extend_eq_ok hdistinct hv).1 hraw
  obtain ⟨raws, hkeys, hraws⟩ := exists_object_of_normalize hparts.1 hfirst
  obtain rfl := Value.object.inj hraws
  -- All three are normalized, so that only the encodings are left to compare.
  rw [serialize, serialize, serialize, Except.bind_ok hraw, Except.bind_ok hfirst,
    Except.bind_ok hsecond]
  exact encode_struct_append hkeys hdistinct

/-! ## Reading the first part -/

/-- The first of two parts is read from the start of the bytes of both. -/
theorem readAt_serialize {c : Codec} {b : Bytes} (rest : Bytes) (hnames : DistinctNames env c)
    (hsingle : SingleTyped env c) (hb : serialize env c v = .ok b)
    (hraw : normalize env c v = .ok raw) (hnests : NestsWithin env defaultMaxDepth c raw) :
    readAt env c (b ++ rest) 0 = .ok (raw, b.length) := by
  have hencode : encode env c raw = .ok b := by rwa [serialize, Except.bind_ok hraw] at hb
  have hbefore : (Reader.ofBytes (b ++ rest)).Before b :=
    (Reader.before_withLimit defaultMaxDepth (b ++ rest)).left
  have hread := read_encode (shaped_tellsType_of_normalize hnames hsingle hraw) hencode hbefore
    hnests
  have hat : Reader.at? (b ++ rest) 0 = .ok (Reader.ofBytes (b ++ rest)) := by
    rw [Reader.at?, if_neg (Nat.not_lt_zero _)]
    rfl
  have hcursor : ((Reader.ofBytes (b ++ rest)).advance b.length).cursor = b.length :=
    Nat.zero_add _
  simp only [readAt, hat, hread, hcursor]

/-! ## Extensions -/

/-- The bytes of one struct start with those that another has for the fields
    that it names. -/
def BeginsWith (env : Registries) (whole part : Codec) : Prop :=
  ∀ v b, serialize env whole v = .ok b →
    ∃ object start rest, v.resolve = .object object ∧
      serialize env part (ownPart part.fields object) = .ok start ∧ b = start ++ rest

theorem beginsWith_extend (env : Registries)
    (hdistinct : ((fields ++ more).map Prod.fst).Nodup) :
    BeginsWith env ((record fields).extend more) (record fields) := by
  intro v b hb
  obtain ⟨raw, hraw, _⟩ := Except.bind_eq_ok.1 hb
  obtain ⟨object, _, hv, _⟩ := (normalize_struct_eq_ok hdistinct).1 hraw
  rw [serialize_extend hdistinct hv hraw] at hb
  obtain ⟨start, hstart, hrest⟩ := Except.bind_eq_ok.1 hb
  obtain ⟨rest, _, hb⟩ := Except.bind_eq_ok.1 hrest
  exact ⟨object, start, rest, hv, hstart, (Except.pure_eq_ok.1 hb).symm⟩

/-- An extended struct accepts what it knows all keys of and what its two parts
    are accepted of; it serializes the parts one after the other; and the struct
    that was extended reads its part from the start of the bytes.  Transactions
    and blocks are extended like this. -/
theorem extend_shares_start (env : Registries) :
    (∀ (fields more : List (String × Codec)) (v : Value) (object : Record Value),
      ((fields ++ more).map Prod.fst).Nodup → v.resolve = .object object →
        ((∃ raw, normalize env ((record fields).extend more) v = .ok raw) ↔
          (∀ name ∈ Record.keys object,
            name ∈ fields.map Prod.fst ∨ name ∈ more.map Prod.fst) ∧
          (∃ raw, normalize env (record fields) (ownPart fields object) = .ok raw) ∧
          ∃ raw, normalize env (record more) (ownPart more object) = .ok raw) ∧
        (∀ raw, normalize env ((record fields).extend more) v = .ok raw →
          serialize env ((record fields).extend more) v = (do
            let as ← serialize env (record fields) (ownPart fields object)
            let bs ← serialize env (record more) (ownPart more object)
            pure (as ++ bs))) ∧
        ∀ b, serialize env ((record fields).extend more) v = .ok b →
          DistinctNames env (record fields) → SingleTyped env (record fields) →
          ∃ raw as, normalize env (record fields) (ownPart fields object) = .ok raw ∧
            serialize env (record fields) (ownPart fields object) = .ok as ∧
            (NestsWithin env defaultMaxDepth (record fields) raw →
              readAt env (record fields) b 0 = .ok (raw, as.length))) ∧
    ∀ p : Protocol, BeginsWith env p.signedTransaction p.transaction ∧
      BeginsWith env p.processedTransaction p.transaction ∧
      BeginsWith env p.signedBlock Schema.blockHeader := by
  constructor
  · intro fields more v object hdistinct hv
    refine ⟨exists_normalize_extend_iff hdistinct hv,
      fun raw hraw => serialize_extend hdistinct hv hraw, fun b hb hnames hsingle => ?_⟩
    obtain ⟨_, hwhole, _⟩ := Except.bind_eq_ok.1 hb
    rw [serialize_extend hdistinct hv hwhole] at hb
    obtain ⟨as, has, hrest⟩ := Except.bind_eq_ok.1 hb
    obtain ⟨bs, _, hb⟩ := Except.bind_eq_ok.1 hrest
    obtain ⟨raw, hraw, _⟩ := Except.bind_eq_ok.1 has
    refine ⟨raw, as, hraw, has, fun hnests => ?_⟩
    rw [← Except.pure_eq_ok.1 hb]
    exact readAt_serialize bs hnames hsingle has hraw hnests
  · intro p
    have hsigned : p.signedTransaction.fieldNames.Nodup := nodup_of_wellFormed rfl
    have hprocessed : p.processedTransaction.fieldNames.Nodup := nodup_of_wellFormed rfl
    have hblock : p.signedBlock.fieldNames.Nodup := nodup_of_wellFormed rfl
    -- Extending twice is extending once by both lists.
    have htwice : p.processedTransaction = p.transaction.extend [
        ("signatures", .vector (fixedBytes 64)), ("signed_with_echorand_key", .bool),
        ("operation_results", .vector Schema.operationResult), ("fees_collected", i64)] := rfl
    refine ⟨beginsWith_extend env hsigned, ?_, beginsWith_extend env hblock⟩
    rw [htwice] at hprocessed ⊢
    exact beginsWith_extend env hprocessed

/-- An empty transaction that was signed, its fields in another order. -/
def signedObject : Record Value :=
  [("signatures", .array []),
   ("ref_block_num", .int 7),
   ("ref_block_prefix", .str "9"),
   ("operations", .array []),
   ("expiration", .int 1),
   ("signed_with_echorand_key", .bool true)]

/-- The first twelve of its bytes are the transaction, and are read as such. -/
theorem extend_shares_start_signedObject :
    ∃ raw, normalize .live (Protocol.transaction {})
        (ownPart (Protocol.transaction {}).fields signedObject) = .ok raw ∧
      readAt .live (Protocol.transaction {}) [7, 0, 9, 0, 0, 0, 1, 0, 0, 0, 0, 0, 0, 1] 0 =
        .ok (raw, 12) := by
  have hmem : ("transaction", Protocol.transaction {}) ∈ Protocol.codecs {} := by
    simp [Protocol.codecs]
  have hnames := Protocol.distinctNames_of_mem_codecs {} hmem
  have hsingle := Protocol.singleTyped_of_mem_codecs {} hmem
  have hdistinct : (Protocol.signedTransaction {}).fieldNames.Nodup := nodup_of_wellFormed rfl
  have hb : serialize .live (Protocol.signedTransaction {}) (.object signedObject) =
      .ok [7, 0, 9, 0, 0, 0, 1, 0, 0, 0, 0, 0, 0, 1] := by cbv
  have hfirst : normalize .live (Protocol.transaction {})
      (ownPart (Protocol.transaction {}).fields signedObject) = .ok (.object [
        ("ref_block_num", .int 7), ("ref_block_prefix", .int 9), ("expiration", .int 1),
        ("operations", .array []), ("extensions", .array [])]) := by cbv
  have hbytes : serialize .live (Protocol.transaction {})
      (ownPart (Protocol.transaction {}).fields signedObject) =
        .ok [7, 0, 9, 0, 0, 0, 1, 0, 0, 0, 0, 0] := by cbv
  obtain ⟨_, _, hread⟩ := (extend_shares_start .live).1 (Protocol.transaction {}).fields
    [("signatures", .vector (fixedBytes 64)), ("signed_with_echorand_key", .bool)]
    (.object signedObject) signedObject hdistinct rfl
  obtain ⟨raw, as, hraw, has, hreadAt⟩ := hread _ hb hnames hsingle
  obtain rfl := Except.ok.inj (hfirst.symm.trans hraw)
  obtain rfl := Except.ok.inj (hbytes.symm.trans has)
  exact ⟨_, hraw, hreadAt (nestsWithin_of_arrayDepth_le _ _ (by decide))⟩

/-! ## Names that are repeated inside -/

/-- One field, and in it a struct that names a field twice. -/
def repeatingFields : List (String × Codec) :=
  [("x", record [("a", .set .string), ("a", .vector (.objectId 1 2 []))])]

def repeatingObject : Record Value :=
  [("x", .object [("a", .array [.str "1.2.5", .str "5"])]), ("y", .bool true)]

/-- Whether an id has one type. -/
def hasOneType : Codec → Bool
  | .objectId _ _ more => more.isEmpty
  | _ => true

theorem singleTyped_repeatingFields : SingleTyped .live (record repeatingFields) := by
  intro d hd
  have htables : ∀ id table, (Registries.live id).table = .ok table →
      allCases hasOneType table = true := by
    intro id table htable
    obtain rfl := Except.ok.inj htable
    rfl
  have hone : d.hasOneType = true := hd.passes htables rfl
  cases d with
  | objectId space type more => exact List.isEmpty_iff.1 hone
  | _ => trivial

/-- Both strings are valid and distinct, but the second field makes one id of
    them.  It is written for both fields, and refused when it is read for the
    first. -/
theorem extend_start_unread_repeatingObject :
    ((repeatingFields ++ [("y", Codec.bool)]).map Prod.fst).Nodup ∧
      SingleTyped .live (record repeatingFields) ∧
      ∃ raw b, normalize .live (record repeatingFields) (ownPart repeatingFields repeatingObject) =
          .ok raw ∧
        NestsWithin .live defaultMaxDepth (record repeatingFields) raw ∧
        serialize .live ((record repeatingFields).extend [("y", Codec.bool)])
          (.object repeatingObject) = .ok b ∧
        readAt .live (record repeatingFields) b 0 = .error (.error
          { Error.decode (.duplicateElement [5, 0x31, 0x2e, 0x32, 0x2e, 0x35]) with
            path := [.field "x", .field "a"] }) := by
  refine ⟨by decide, singleTyped_repeatingFields,
    .object [("x", .object [("a", .array [.str "1.2.5", .str "1.2.5"])])],
    [2, 5, 0x31, 0x2e, 0x32, 0x2e, 0x35, 5, 0x31, 0x2e, 0x32, 0x2e, 0x35, 2, 5, 5, 1],
    by cbv, nestsWithin_of_arrayDepth_le _ _ (by decide), by cbv, by cbv⟩

end Codec

end ChainCodec
