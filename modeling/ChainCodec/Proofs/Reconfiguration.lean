import ChainCodec.Proofs.Reading.Completeness
import ChainCodec.Proofs.Reading.Matching
import ChainCodec.Proofs.Reencoding

/-! # Protocols differ in texts only

    Chains of one family differ in the prefix of their keys and addresses and
    in the asset of their fees.  Neither is on the wire: the codecs of two
    protocols read the same bytes, fail alike, and write the same bytes for what
    they read.

    `adapt` gives the codec that another protocol has in the place of a codec,
    and `Respelt` relates values that differ in prefixes only.  Reading with a
    codec adapted to the one or to the other protocol gives such values, and
    such values are written alike. -/

namespace ChainCodec

/-! ## The codecs of another protocol -/

def OperationLink.adapt (q : Protocol) (link : OperationLink) : OperationLink :=
  { link with registry := q.registry, feeAsset := q.config.coreAssetId }

namespace Codec

mutual

/-- The codec with the prefix and the registry of a protocol. -/
def adapt (q : Protocol) : Codec → Codec
  | .publicKey scheme _ => .publicKey scheme q.config.addressPrefix
  | .address .graphene _ => .address .graphene q.config.addressPrefix
  | .operation link => .operation (link.adapt q)
  | .vector c => .vector (adapt q c)
  | .set c => .set (adapt q c)
  | .map c d => .map (adapt q c) (adapt q d)
  | .optional c => .optional (adapt q c)
  | .pair c d => .pair (adapt q c) (adapt q d)
  | .variant label cases => .variant label (adaptCases q cases)
  | .struct fields ignoreUnknown => .struct (adaptFields q fields) ignoreUnknown
  | c => c

def adaptCases (q : Protocol) : List (UInt32 × Codec) → List (UInt32 × Codec)
  | [] => []
  | (tag, c) :: rest => (tag, adapt q c) :: adaptCases q rest

def adaptFields (q : Protocol) : List (String × Codec) → List (String × Codec)
  | [] => []
  | (name, c) :: rest => (name, adapt q c) :: adaptFields q rest

end

theorem adaptCases_eq_map (q : Protocol) (cases : CaseTable) :
    adaptCases q cases = cases.map fun case => (case.1, adapt q case.2) := by
  induction cases with
  | nil => rfl
  | cons case cases ih => rw [adaptCases, ih, List.map_cons]

theorem adaptFields_eq_map (q : Protocol) (fields : List (String × Codec)) :
    adaptFields q fields = fields.map fun f => (f.1, adapt q f.2) := by
  induction fields with
  | nil => rfl
  | cons f fields ih => rw [adaptFields, ih, List.map_cons]

theorem lookup_adaptCases (q : Protocol) (tag : UInt32) (cases : CaseTable) :
    (adaptCases q cases).lookup tag = (cases.lookup tag).map (adapt q) := by
  induction cases with
  | nil => rfl
  | cons case cases ih =>
    rw [adaptCases, List.lookup_cons, List.lookup_cons, ih]
    split <;> rfl

theorem lookup_adaptCases_of (q : Protocol) {tag : UInt32} {cases : CaseTable} {c : Codec}
    (h : cases.lookup tag = some c) : (adaptCases q cases).lookup tag = some (c.adapt q) := by
  rw [lookup_adaptCases, h, Option.map_some]

/-- Scalars whose values have no prefix. -/
def isPlain : Codec → Bool
  | .int _ | .varint | .bool | .bytes _ | .string | .time | .void | .objectId .. | .anyObjectId
  | .address .pts _ => true
  | _ => false

theorem adapt_of_isPlain {c : Codec} (h : c.isPlain = true) (q : Protocol) : c.adapt q = c := by
  match c with
  | .int _ | .varint | .bool | .bytes _ | .string | .time | .void | .objectId .. | .anyObjectId
  | .address .pts _ => rfl
  | .publicKey .. | .address .graphene _ | .operation _ | .vector _ | .set _ | .map ..
  | .optional _ | .pair .. | .variant .. | .struct .. => cases h

/-- Codecs that do not name a prefix or a registry themselves. -/
def isCommon : Codec → Bool
  | .publicKey .. | .address .graphene _ | .operation _ => false
  | _ => true

mutual

/-- All protocols have the codec in common, if none that it is built from names a
    prefix or a registry. -/
theorem adapt_of_all {c : Codec} (h : all isCommon c = true) (q : Protocol) : c.adapt q = c := by
  match c with
  | .int _ | .varint | .bool | .bytes _ | .string | .time | .void | .objectId .. | .anyObjectId
  | .address .pts _ => rfl
  | .publicKey .. | .address .graphene _ | .operation _ => cases h
  | .vector c =>
    simp only [all, Bool.and_eq_true] at h
    rw [adapt, adapt_of_all h.2]
  | .set c =>
    simp only [all, Bool.and_eq_true] at h
    rw [adapt, adapt_of_all h.2]
  | .map c d =>
    simp only [all, Bool.and_eq_true] at h
    rw [adapt, adapt_of_all h.2.1, adapt_of_all h.2.2]
  | .optional c =>
    simp only [all, Bool.and_eq_true] at h
    rw [adapt, adapt_of_all h.2]
  | .pair c d =>
    simp only [all, Bool.and_eq_true] at h
    rw [adapt, adapt_of_all h.2.1, adapt_of_all h.2.2]
  | .variant label cases =>
    simp only [all, Bool.and_eq_true] at h
    rw [adapt, adaptCases_of_all h.2]
  | .struct fields ignoreUnknown =>
    simp only [all, Bool.and_eq_true] at h
    rw [adapt, adaptFields_of_all h.2]

theorem adaptCases_of_all {cases : List (UInt32 × Codec)} (h : allCases isCommon cases = true)
    (q : Protocol) : adaptCases q cases = cases := by
  match cases with
  | [] => rfl
  | (tag, c) :: rest =>
    simp only [allCases, Bool.and_eq_true] at h
    rw [adaptCases, adapt_of_all h.1, adaptCases_of_all h.2]

theorem adaptFields_of_all {fields : List (String × Codec)}
    (h : allFields isCommon fields = true) (q : Protocol) : adaptFields q fields = fields := by
  match fields with
  | [] => rfl
  | (name, c) :: rest =>
    simp only [allFields, Bool.and_eq_true] at h
    rw [adaptFields, adapt_of_all h.1, adaptFields_of_all h.2]

end

theorem adaptFields_append (q : Protocol) (fields more : List (String × Codec)) :
    adaptFields q (fields ++ more) = adaptFields q fields ++ adaptFields q more := by
  simp only [adaptFields_eq_map, List.map_append]

/-- Further fields are adapted along with a struct. -/
theorem adapt_extend (q : Protocol) (c : Codec) (more : List (String × Codec)) :
    (c.extend more).adapt q = (c.adapt q).extend (adaptFields q more) := by
  match c with
  | .struct fields _ => simp only [extend, adapt, adaptFields_append]
  | .int _ | .varint | .bool | .bytes _ | .string | .time | .void | .objectId .. | .anyObjectId
  | .address .pts _ | .address .graphene _ | .publicKey .. | .operation _ | .vector _ | .set _
  | .map .. | .optional _ | .pair .. | .variant .. => rfl

end Codec

open Codec

/-! ## The schemas of a protocol and of another one -/

namespace Schema

section Schemas

variable (config : ChainConfig) (q : Protocol)

theorem adapt_publicKey : (publicKey config).adapt q = publicKey q.config := rfl

theorem adapt_echorandKey : (echorandKey config).adapt q = echorandKey q.config := rfl

theorem adapt_address : (address config).adapt q = address q.config := rfl

theorem adapt_authority : (authority config).adapt q = authority q.config := by
  simp (disch := decide) only [authority, record, adapt, adaptFields, adapt_of_all, adapt_publicKey]

theorem adapt_accountObject : (accountObject config).adapt q = accountObject q.config := by
  simp (disch := decide) only [accountObject, openRecord, adapt, adaptFields, adapt_of_all,
    adapt_authority, adapt_echorandKey]

theorem adapt_balanceObject : (balanceObject config).adapt q = balanceObject q.config := by
  simp (disch := decide) only [balanceObject, openRecord, adapt, adaptFields, adapt_of_all,
    adapt_address]

theorem adapt_transaction (operation : Codec) :
    (transaction operation).adapt q = transaction (operation.adapt q) := by
  simp (disch := decide) only [transaction, record, adapt, adaptFields, adapt_of_all]

theorem adapt_signedTransaction (operation : Codec) :
    (signedTransaction operation).adapt q = signedTransaction (operation.adapt q) := by
  simp (disch := decide) only [signedTransaction, adapt_extend, adapt_transaction,
    adaptFields_of_all]

theorem adapt_processedTransaction (operation : Codec) :
    (processedTransaction operation).adapt q = processedTransaction (operation.adapt q) := by
  simp (disch := decide) only [processedTransaction, adapt_extend, adapt_signedTransaction,
    adaptFields_of_all]

theorem adapt_signedBlock (operation : Codec) :
    (signedBlock operation).adapt q = signedBlock (operation.adapt q) := by
  simp (disch := decide) only [signedBlock, adapt_extend, adapt, adaptFields, adapt_of_all,
    adapt_processedTransaction]

/-- Few operations name keys, addresses or operations. -/
theorem adapt_bodyOf (nested : Codec) (id : OperationId) :
    adaptFields q (bodyOf config nested id) = bodyOf q.config (nested.adapt q) id := by
  cases id with
  | transferToAddress | accountCreate | accountUpdate | proposalCreate | proposalUpdate
  | balanceClaim =>
    simp (disch := decide) only [bodyOf, adapt, adaptFields, adapt_of_all, adapt_publicKey,
      adapt_echorandKey, adapt_address, adapt_authority]
  | _ => exact adaptFields_of_all rfl q

theorem adapt_fieldsOf (nested : Codec) (id : OperationId) :
    adaptFields q (fieldsOf config nested id) = fieldsOf q.config (nested.adapt q) id := by
  simp (disch := decide) only [fieldsOf, List.cons_append, adaptFields, adaptFields_append,
    adapt_bodyOf, adapt_of_all]

theorem adapt_operationTable (id : RegistryId) :
    adaptCases q (operationTable id) = operationTable q.registry := by
  rw [adaptCases_eq_map, operationTable, operationTable, List.map_map]
  refine List.map_congr_left fun op _ => ?_
  exact congrArg (fun fields => (op.code, record fields)) (adapt_fieldsOf id.config q _ op)

end Schemas

end Schema

/-! ## The codecs of a protocol and of another one -/

namespace Protocol

/-- What a protocol can be asked for. -/
inductive Accessor where
  /-- Whole messages and objects. -/
  | whole (name : String)
  /-- Building blocks. -/
  | shared (name : String)
  /-- The fields of an operation. -/
  | fields (id : OperationId)
  /-- The object with an id. -/
  | object (id : ObjectId)

/-- The codec that the protocol gives out. -/
def codec? (p : Protocol) : Accessor → Option Codec
  | .whole name => Record.get? name p.codecs
  | .shared name => Record.get? name p.sharedCodecs
  | .fields id => some (p.operationFields id)
  | .object id => p.chainObject? id

section Codecs

variable (p q : Protocol)

theorem adapt_operation : p.operation.adapt q = q.operation := rfl

theorem adapt_feeEstimatingOperation :
    p.feeEstimatingOperation.adapt q = q.feeEstimatingOperation := rfl

theorem adapt_codecs : adaptFields q p.codecs = q.codecs := by
  simp (disch := decide) only [codecs, transaction, feeEstimatingTransaction, signedTransaction,
    processedTransaction, signedBlock, adaptFields, adapt_of_all, adapt_operation,
    adapt_feeEstimatingOperation, Schema.adapt_transaction, Schema.adapt_signedTransaction,
    Schema.adapt_processedTransaction, Schema.adapt_signedBlock, Schema.adapt_accountObject,
    Schema.adapt_balanceObject]

theorem adapt_sharedCodecs : adaptFields q p.sharedCodecs = q.sharedCodecs := by
  simp (disch := decide) only [sharedCodecs, adaptFields, adapt_of_all, Schema.adapt_publicKey,
    Schema.adapt_echorandKey, Schema.adapt_address, Schema.adapt_authority]

theorem adapt_operationFields (id : OperationId) :
    (p.operationFields id).adapt q = q.operationFields id :=
  congrArg record (Schema.adapt_fieldsOf p.config q
    (record [("op", Schema.nestedOperation p.registry)]) id)

/-- Objects of assets and of the state of the chain name no keys. -/
theorem adapt_chainObject? (id : ObjectId) :
    (p.chainObject? id).map (adapt q) = q.chainObject? id := by
  rw [chainObject?, chainObject?]
  split
  · split
    · exact congrArg some (Schema.adapt_accountObject p.config q)
    · exact congrArg some (adapt_of_all rfl q)
    · exact congrArg some (Schema.adapt_balanceObject p.config q)
    · rfl
  · split
    · exact congrArg some (adapt_of_all rfl q)
    · rfl
  · rfl

end Codecs

end Protocol

theorem Codec.get?_adaptFields (q : Protocol) (name : String) (fields : Record Codec) :
    Record.get? name (adaptFields q fields) = (Record.get? name fields).map (adapt q) := by
  rw [adaptFields_eq_map]
  exact Record.get?_mapValues (adapt q) fields name

namespace Protocol

/-- Both protocols have a codec or neither has, and theirs is the other one's,
    adapted. -/
theorem codec?_adapt (p q : Protocol) (a : Accessor) :
    q.codec? a = (p.codec? a).map (adapt q) := by
  cases a with
  | whole name => rw [codec?, codec?, ← get?_adaptFields, adapt_codecs]
  | shared name => rw [codec?, codec?, ← get?_adaptFields, adapt_sharedCodecs]
  | fields id => rw [codec?, codec?, Option.map_some, adapt_operationFields]
  | object id => exact (adapt_chainObject? p q id).symm

theorem adapt_self {p : Protocol} {a : Accessor} {c : Codec} (h : p.codec? a = some c) :
    c.adapt p = c := by
  have hself := p.codec?_adapt p a
  rw [h] at hself
  exact (Option.some.inj hself).symm

end Protocol

/-! ## Values that differ in prefixes -/

namespace Codec

/-- The second value is the first one with the prefix of `q` in the place of
    that of `p` in the texts of keys and addresses; all else is the same, and in
    the same order. -/
inductive Respelt (p q : Protocol) : Codec → Value → Value → Prop
  | plain {c : Codec} {v : Value} (h : c.isPlain = true) : Respelt p q c v v
  | publicKey {scheme : KeyScheme} {start : String} (body : String) :
      Respelt p q (.publicKey scheme start) (.str (p.config.addressPrefix ++ body))
        (.str (q.config.addressPrefix ++ body))
  | address {start : String} (body : String) :
      Respelt p q (.address .graphene start) (.str (p.config.addressPrefix ++ body))
        (.str (q.config.addressPrefix ++ body))
  | vector {c : Codec} {items : List (Value × Value)}
      (h : ∀ x ∈ items, Respelt p q c x.1 x.2) :
      Respelt p q (.vector c) (.array (items.map Prod.fst)) (.array (items.map Prod.snd))
  | set {c : Codec} {items : List (Value × Value)}
      (h : ∀ x ∈ items, Respelt p q c x.1 x.2) :
      Respelt p q (.set c) (.array (items.map Prod.fst)) (.array (items.map Prod.snd))
  | map {c d : Codec} {entries : List ((Value × Value) × (Value × Value))}
      (hkeys : ∀ x ∈ entries, Respelt p q c x.1.1 x.2.1)
      (hvalues : ∀ x ∈ entries, Respelt p q d x.1.2 x.2.2) :
      Respelt p q (.map c d) (.array ((entries.map Prod.fst).map Value.entry))
        (.array ((entries.map Prod.snd).map Value.entry))
  | absent {c : Codec} : Respelt p q (.optional c) .null .null
  | present {c : Codec} {v w : Value} (h : Respelt p q c v w) : Respelt p q (.optional c) v w
  | pair {c d : Codec} {a a' b b' : Value} (ha : Respelt p q c a a') (hb : Respelt p q d b b') :
      Respelt p q (.pair c d) (.array [a, b]) (.array [a', b'])
  | variant {label : String} {cases : CaseTable} {tag : UInt32} {c : Codec} {v w : Value}
      (hcase : cases.lookup tag = some c) (h : Respelt p q c v w) :
      Respelt p q (.variant label cases) (.array [.int tag.toNat, v]) (.array [.int tag.toNat, w])
  | struct {fields : List (String × Codec)} {ignoreUnknown : Bool} {record record' : Record Value}
      (hkeys : Record.keys record = fields.map Prod.fst)
      (hkeys' : Record.keys record' = fields.map Prod.fst)
      (h : ∀ f ∈ fields, Respelt p q f.2 (Value.field record f.1) (Value.field record' f.1)) :
      Respelt p q (.struct fields ignoreUnknown) (.object record) (.object record')
  | operation {link : OperationLink} {tag : UInt32} {c : Codec} {v w : Value}
      (hcase : (Schema.operationTable p.registry).lookup tag = some c) (h : Respelt p q c v w) :
      Respelt p q (.operation link) (.array [.int tag.toNat, v]) (.array [.int tag.toNat, w])

end Codec

/-! ## Reading -/

namespace Codec

open Read

section Reading

variable {p q : Protocol} {op op' : ReadOperation}

/-- What the fields of a struct give to the two readings. -/
def FieldsRespelt (p q : Protocol) (fields : List (String × Codec))
    (vs ws : List (String × Value)) : Prop :=
  ∃ parts : List ((String × Codec) × (Value × Value)), fields = parts.map Prod.fst ∧
    vs = parts.map (fun x => (x.1.1, x.2.1)) ∧ ws = parts.map (fun x => (x.1.1, x.2.2)) ∧
      ∀ x ∈ parts, Respelt p q x.1.2 x.2.1 x.2.2

theorem FieldsRespelt.cons {name : String} {c : Codec} {fields : List (String × Codec)}
    {vs ws : List (String × Value)} {v w : Value} (h : Respelt p q c v w)
    (hrest : FieldsRespelt p q fields vs ws) :
    FieldsRespelt p q ((name, c) :: fields) ((name, v) :: vs) ((name, w) :: ws) := by
  obtain ⟨parts, rfl, rfl, rfl, hparts⟩ := hrest
  refine ⟨((name, c), (v, w)) :: parts, rfl, rfl, rfl, ?_⟩
  intro x hx
  rcases List.mem_cons.1 hx with rfl | hx
  · exact h
  · exact hparts x hx

/-- Fields of distinct names make records that differ in prefixes only. -/
theorem FieldsRespelt.struct {fields : List (String × Codec)} {ignoreUnknown : Bool}
    {vs ws : List (String × Value)} (h : FieldsRespelt p q fields vs ws)
    (hdistinct : (fields.map Prod.fst).Nodup) :
    Respelt p q (.struct fields ignoreUnknown) (.object (Record.ofList vs))
      (.object (Record.ofList ws)) := by
  obtain ⟨parts, rfl, rfl, rfl, hparts⟩ := h
  have hnames : ∀ g : Value × Value → Value,
      (parts.map fun x => (x.1.1, g x.2)).map Prod.fst = (parts.map Prod.fst).map Prod.fst := by
    intro g
    rw [List.map_map, List.map_map]
    rfl
  have hrecord : ∀ g : Value × Value → Value,
      Record.ofList (parts.map fun x => (x.1.1, g x.2)) = parts.map fun x => (x.1.1, g x.2) :=
    fun g => Record.ofList_of_nodup (by rwa [hnames g])
  have hfield : ∀ g : Value × Value → Value, ∀ x ∈ parts,
      Value.field (parts.map fun x => (x.1.1, g x.2)) x.1.1 = g x.2 := by
    intro g x hx
    have hmem : (x.1.1, g x.2) ∈ parts.map fun x => (x.1.1, g x.2) := List.mem_map_of_mem hx
    exact Value.field_of_mem (by rwa [Record.keys, hnames g]) hmem
  rw [hrecord Prod.fst, hrecord Prod.snd]
  refine .struct (hnames Prod.fst) (hnames Prod.snd) fun f hf => ?_
  obtain ⟨x, hx, rfl⟩ := List.mem_map.1 hf
  rw [hfield Prod.fst x hx, hfield Prod.snd x hx]
  exact hparts x hx

theorem forall₂_respelt {c : Codec} {vs ws : List Value} (h : List.Forall₂ (Respelt p q c) vs ws) :
    Respelt p q (.vector c) (.array vs) (.array ws) ∧
      Respelt p q (.set c) (.array vs) (.array ws) := by
  obtain ⟨items, rfl, rfl, hitems⟩ := exists_zip h
  exact ⟨.vector hitems, .set hitems⟩

/-- Two entries of a map that differ in prefixes only. -/
def EntriesRespelt (p q : Protocol) (c d : Codec) (v w : Value) : Prop :=
  ∃ x x' : Value × Value, v = Value.entry x ∧ w = Value.entry x' ∧
    Respelt p q c x.1 x'.1 ∧ Respelt p q d x.2 x'.2

theorem respelt_map {c d : Codec} {vs ws : List Value}
    (h : List.Forall₂ (EntriesRespelt p q c d) vs ws) :
    Respelt p q (.map c d) (.array vs) (.array ws) := by
  have hentries : ∃ entries : List ((Value × Value) × (Value × Value)),
      vs = (entries.map Prod.fst).map Value.entry ∧
        ws = (entries.map Prod.snd).map Value.entry ∧
          ∀ x ∈ entries, Respelt p q c x.1.1 x.2.1 ∧ Respelt p q d x.1.2 x.2.2 := by
    induction h with
    | nil => exact ⟨[], rfl, rfl, by simp⟩
    | cons h _ ih =>
      obtain ⟨x, x', rfl, rfl, hx⟩ := h
      obtain ⟨entries, rfl, rfl, hentries⟩ := ih
      refine ⟨(x, x') :: entries, rfl, rfl, ?_⟩
      intro y hy
      rcases List.mem_cons.1 hy with rfl | hy
      · exact hx
      · exact hentries y hy
  obtain ⟨entries, rfl, rfl, hentries⟩ := hentries
  exact .map (fun x hx => (hentries x hx).1) fun x hx => (hentries x hx).2

/-- Scalars are read in the same way, whatever operations do. -/
theorem readWith_matched_of_isPlain {c : Codec} (h : c.isPlain = true) :
    Matched (Respelt p q c) (readWith op (c.adapt p)) (readWith op' (c.adapt q)) := by
  have hsame : readWith op c = readWith op' c := by
    match c with
    | .int _ | .varint | .bool | .bytes _ | .string | .time | .void | .objectId .. | .anyObjectId
    | .address .pts _ => simp only [readWith]
    | .publicKey .. | .address .graphene _ | .operation _ | .vector _ | .set _ | .map ..
    | .optional _ | .pair .. | .variant .. | .struct .. => cases h
  rw [adapt_of_isPlain h, adapt_of_isPlain h, hsame]
  refine (matched_self _).imp fun v w hvw => ?_
  subst hvw
  exact .plain h

mutual

theorem readWith_matched (hop : ∀ link, Matched (Respelt p q (.operation link))
      (op (link.adapt p)) (op' (link.adapt q))) (c : Codec) (hc : all wellFormed c = true) :
    Matched (Respelt p q c) (readWith op (c.adapt p)) (readWith op' (c.adapt q)) := by
  match c with
  | .int _ | .varint | .bool | .bytes _ | .string | .time | .void | .objectId .. | .anyObjectId
  | .address .pts _ => exact readWith_matched_of_isPlain rfl
  | .publicKey scheme start =>
    -- The prefix is put before a text that depends on the bytes only.
    simp only [adapt, readWith, Read.publicKey, bind_assoc, pure_bind]
    refine .after _ fun point => .after _ fun _ => matched_pure ?_
    cases scheme <;> exact .publicKey _
  | .address .graphene start =>
    simp only [adapt, readWith, Read.address, bind_assoc, pure_bind]
    refine .after _ fun bs => .afterResult _ fun a ha => matched_pure ?_
    obtain ⟨rfl, _⟩ := Address.bytes_of_ofBytes (Except.mapError_eq_ok.1 ha)
    exact .address _
  | .operation link => exact hop link
  | .vector c =>
    simp only [all, Bool.and_eq_true] at hc
    simp only [adapt, readWith]
    refine .after _ fun n => ?_
    refine (Matched.repeatFrom (fun i => ?_) 0 n.toNat).map fun vs ws h => (forall₂_respelt h).1
    exact (readWith_matched hop c hc.2).within _
  | .set c =>
    simp only [all, Bool.and_eq_true] at hc
    simp only [adapt, readWith]
    refine .after _ fun n => ?_
    refine (Matched.repeatFrom (R := fun e e' => e.1 = e'.1 ∧ Respelt p q c e.2 e'.2)
      (fun i => ?_) 0 n.toNat).bind fun es es' h => ?_
    · refine .after _ fun start => ?_
      refine ((readWith_matched hop c hc.2).within _).bind fun v w hvw => ?_
      exact .after _ fun bs => matched_pure ⟨rfl, hvw⟩
    · exact matched_ordered _ h fun vs ws h => (forall₂_respelt h).2
  | .map c d =>
    simp only [all, Bool.and_eq_true] at hc
    simp only [adapt, readWith]
    refine .after _ fun n => ?_
    refine (Matched.repeatFrom (R := fun e e' => e.1 = e'.1 ∧ EntriesRespelt p q c d e.2 e'.2)
      (fun i => ?_) 0 n.toNat).bind fun es es' h => ?_
    · refine .after _ fun start => ?_
      refine ((readWith_matched hop c hc.2.1).within _).bind fun k k' hk => ?_
      refine .after _ fun bs => ?_
      refine ((readWith_matched hop d hc.2.2).within _).bind fun v v' hv => ?_
      exact matched_pure ⟨rfl, (k, v), (k', v'), rfl, rfl, hk, hv⟩
    · exact matched_ordered _ h fun vs ws h => respelt_map h
  | .optional c =>
    simp only [all, Bool.and_eq_true] at hc
    simp only [adapt, readWith]
    refine .after _ fun b => ?_
    split
    · exact matched_pure .absent
    · split
      · exact (readWith_matched hop c hc.2).imp fun v w => .present
      · exact matched_fail _
  | .pair c d =>
    simp only [all, Bool.and_eq_true] at hc
    simp only [adapt, readWith]
    refine ((readWith_matched hop c hc.2.1).within _).bind fun a a' ha => ?_
    exact ((readWith_matched hop d hc.2.2).within _).map fun b b' hb => .pair ha hb
  | .variant label cases =>
    simp only [all, Bool.and_eq_true] at hc
    simp only [adapt, readWith]
    refine .after _ fun tag => ?_
    refine (readCase_matched hop label tag cases hc.2).map fun v w h => ?_
    obtain ⟨c, hcase, hvw⟩ := h
    exact .variant hcase hvw
  | .struct fields _ =>
    simp only [all, Bool.and_eq_true] at hc
    simp only [adapt, readWith]
    exact (readFields_matched hop fields hc.2).map fun vs ws h =>
      h.struct (nodup_of_wellFormed hc.1)

theorem readCase_matched (hop : ∀ link, Matched (Respelt p q (.operation link))
      (op (link.adapt p)) (op' (link.adapt q))) (label : String) (tag : UInt32)
    (cases : List (UInt32 × Codec)) (hcases : allCases wellFormed cases = true) :
    Matched (fun v w => ∃ c, cases.lookup tag = some c ∧ Respelt p q c v w)
      (readCase op label tag (adaptCases p cases))
      (readCase op' label tag (adaptCases q cases)) := by
  match cases with
  | [] =>
    simp only [adaptCases, readCase]
    exact matched_fail _
  | (t, c) :: rest =>
    simp only [allCases, Bool.and_eq_true] at hcases
    simp only [adaptCases, readCase]
    by_cases ht : t = tag
    · subst ht
      simp only [if_true]
      refine ((readWith_matched hop c hcases.1).within _).nested.imp fun v w h => ?_
      exact ⟨c, by simp, h⟩
    · simp only [if_neg ht, lookup_cons_ne ht]
      exact readCase_matched hop label tag rest hcases.2

theorem readFields_matched (hop : ∀ link, Matched (Respelt p q (.operation link))
      (op (link.adapt p)) (op' (link.adapt q))) (fields : List (String × Codec))
    (hfields : allFields wellFormed fields = true) :
    Matched (FieldsRespelt p q fields) (readFields op (adaptFields p fields))
      (readFields op' (adaptFields q fields)) := by
  match fields with
  | [] =>
    simp only [adaptFields, readFields]
    exact matched_pure ⟨[], rfl, rfl, rfl, by simp⟩
  | (name, c) :: rest =>
    simp only [allFields, Bool.and_eq_true] at hfields
    simp only [adaptFields, readFields]
    refine ((readWith_matched hop c hfields.1).within _).bind fun v w h => ?_
    exact (readFields_matched hop rest hfields.2).map fun vs ws hrest => .cons h hrest

end

/-- Operations are read from the tables of the two protocols. -/
theorem readOperation_matched (p q : Protocol) (fuel : Nat) (link : OperationLink) :
    Matched (Respelt p q (.operation link)) (readOperation .live fuel (link.adapt p))
      (readOperation .live fuel (link.adapt q)) := by
  induction fuel generalizing link with
  | zero => exact matched_fail _
  | succ fuel ih =>
    have hunion : ∀ q' : Protocol, readOperation .live (fuel + 1) (link.adapt q') =
        readWith (readOperation .live fuel) (.variant operationLabel
          (adaptCases q' (Schema.operationTable p.registry))) := by
      intro q'
      rw [Schema.adapt_operationTable]
      rfl
    rw [hunion p, hunion q]
    simp only [readWith]
    refine .after _ fun tag => ?_
    refine (readCase_matched ih operationLabel tag _ ?_).map fun v w h => ?_
    · exact Schema.wellFormed_operationTable p.registry
    · obtain ⟨c, hcase, hvw⟩ := h
      exact .operation hcase hvw

theorem read_matched (p q : Protocol) {c : Codec} (hc : all wellFormed c = true) :
    Matched (Respelt p q c) (read .live (c.adapt p)) (read .live (c.adapt q)) :=
  readWith_matched (fun link r => readOperation_matched p q (r.room + 1) link r) c hc

end Reading

end Codec

/-! ## Writing -/

namespace PublicKey

/-- The whole text is only named in faults. -/
theorem unchecked_of_text {scheme : KeyScheme} {text : String} {data point : Bytes}
    (h : unchecked scheme text data = .ok point) (text' : String) :
    unchecked scheme text' data = .ok point := by
  cases scheme with
  | ed25519 => exact h
  | secp256k1 =>
    simp only [unchecked] at h ⊢
    split at h
    · cases h
    · split at h
      · rw [if_neg (by assumption), if_pos (by assumption)]
        exact h
      · cases h

/-- What stands behind the prefix is the same key behind another prefix. -/
theorem parse_append {scheme : KeyScheme} {start body : String} {point : Bytes}
    (h : parse scheme start (start ++ body) = .ok point) (start' : String) :
    parse scheme start' (start' ++ body) = .ok point := by
  have hbody (start : String) : bodyOf start (start ++ body) = .ok body := by
    rw [bodyOf, dropPrefix?_append]
  rw [parse, Except.bind_ok (hbody start)] at h
  obtain ⟨data, hdata, h⟩ := Except.bind_eq_ok.1 h
  obtain ⟨_, hpoint, h⟩ := Except.bind_eq_ok.1 h
  obtain ⟨_, hcheck, h⟩ := Except.bind_eq_ok.1 h
  obtain rfl := Except.ok.inj h
  exact parse_of (hbody start') (Except.mapError_eq_ok.1 hdata) (unchecked_of_text hpoint _) hcheck

end PublicKey

namespace Address

theorem unchecked_of_text {text : String} {data bs : Bytes}
    (h : unchecked .graphene text data = .ok bs) (text' : String) :
    unchecked .graphene text' data = .ok bs := by
  simp only [unchecked] at h ⊢
  split at h
  · cases h
  · split at h
    · rw [if_neg (by assumption), if_pos (by assumption)]
      exact h
    · cases h

theorem parse_append {start body : String} {a : Address}
    (h : parse .graphene start (start ++ body) = .ok a) (start' : String) :
    parse .graphene start' (start' ++ body) = .ok a := by
  have hbody (start : String) : bodyOf .graphene start (start ++ body) = .ok body := by
    rw [bodyOf, dropPrefix?_append]
  rw [parse, Except.bind_ok (hbody start)] at h
  obtain ⟨data, hdata, h⟩ := Except.bind_eq_ok.1 h
  obtain ⟨_, hbytes, ha⟩ := Except.bind_eq_ok.1 h
  exact parse_of (hbody start') (Except.mapError_eq_ok.1 hdata) (unchecked_of_text hbytes _) ha

end Address

namespace Codec

section Writing

variable {p q : Protocol} {c : Codec} {v w : Value} {b : Bytes}

theorem encode_publicKey_of_append {env : Registries} {scheme : KeyScheme} {start body : String}
    (h : encode env (.publicKey scheme start) (.str (start ++ body)) = .ok b) (start' : String) :
    encode env (.publicKey scheme start') (.str (start' ++ body)) = .ok b := by
  simp only [encode, write, writeWith, Write.run_lift_bind] at h ⊢
  obtain ⟨point, hpoint, hb⟩ := Except.bind_eq_ok.1 h
  have hparse := PublicKey.parse_append (Except.mapError_eq_ok.1 hpoint) start'
  exact Except.bind_eq_ok.2 ⟨point, Except.mapError_eq_ok.2 hparse, hb⟩

theorem encode_address_of_append {env : Registries} {start body : String}
    (h : encode env (.address .graphene start) (.str (start ++ body)) = .ok b) (start' : String) :
    encode env (.address .graphene start') (.str (start' ++ body)) = .ok b := by
  simp only [encode, write, writeWith, Write.run_lift_bind] at h ⊢
  obtain ⟨a, ha, hb⟩ := Except.bind_eq_ok.1 h
  have hparse := Address.parse_append (Except.mapError_eq_ok.1 ha) start'
  exact Except.bind_eq_ok.2 ⟨a, Except.mapError_eq_ok.2 hparse, hb⟩

theorem Respelt.isNull_eq (h : Respelt p q c v w) : v.isNull = w.isNull := by
  induction h with
  | present _ ih => exact ih
  | plain | publicKey | address | vector | set | map | absent | pair | variant | struct
  | operation => rfl

/-- Values that differ in prefixes only are written alike, each with the codec
    of its own protocol. -/
theorem Respelt.encode_eq_ok (h : Respelt p q c v w) (hb : encode .live (c.adapt p) v = .ok b) :
    encode .live (c.adapt q) w = .ok b := by
  induction h generalizing b with
  | plain h =>
    rw [adapt_of_isPlain h] at hb ⊢
    exact hb
  | publicKey body => exact encode_publicKey_of_append hb _
  | address body => exact encode_address_of_append hb _
  | vector h ih =>
    obtain ⟨hlength, parts, hparts, rfl⟩ := encode_vector_eq_ok.1 hb
    rw [List.forall₂_map_left_iff] at hparts
    refine encode_vector_eq_ok.2 ⟨?_, parts, ?_, ?_⟩
    · rwa [List.length_map] at hlength ⊢
    · rw [List.forall₂_map_left_iff]
      exact forall₂_imp_of_mem hparts fun x hx bs => ih x hx
    · rw [List.length_map, List.length_map]
  | set h ih =>
    obtain ⟨hlength, parts, hparts, rfl⟩ := encode_set_eq_ok.1 hb
    rw [List.forall₂_map_left_iff] at hparts
    refine encode_set_eq_ok.2 ⟨?_, parts, ?_, ?_⟩
    · rwa [List.length_map] at hlength ⊢
    · rw [List.forall₂_map_left_iff]
      exact forall₂_imp_of_mem hparts fun x hx bs => ih x hx
    · rw [List.length_map, List.length_map]
  | map _ _ ihkeys ihvalues =>
    obtain ⟨hlength, parts, hparts, rfl⟩ := encode_map_eq_ok.1 hb
    rw [List.forall₂_map_left_iff] at hparts
    refine encode_map_eq_ok.2 ⟨?_, parts, ?_, ?_⟩
    · rwa [List.length_map] at hlength ⊢
    · rw [List.forall₂_map_left_iff]
      exact forall₂_imp_of_mem hparts fun x hx bs hbs =>
        ⟨ihkeys x hx hbs.1, ihvalues x hx hbs.2⟩
    · rw [List.length_map, List.length_map]
  | absent => exact hb
  | @present c v w h ih =>
    -- Null is respelt as null, and then no part is written.
    have hnulls := h.isNull_eq
    cases hnull : v.isNull with
    | true =>
      rw [hnull] at hnulls
      obtain rfl := Value.isNull_iff.1 hnull
      obtain rfl := Value.isNull_iff.1 hnulls.symm
      exact encode_null.trans (encode_null.symm.trans hb)
    | false =>
      obtain ⟨bs, hbs, rfl⟩ := (encode_optional_eq_ok hnull).1 hb
      exact (encode_optional_eq_ok (hnulls.symm.trans hnull)).2 ⟨bs, ih hbs, rfl⟩
  | pair _ _ iha ihb =>
    obtain ⟨as, bs, has, hbs, rfl⟩ := encode_pair_eq_ok.1 hb
    exact encode_pair_eq_ok.2 ⟨as, bs, iha has, ihb hbs, rfl⟩
  | variant hcase _ ih =>
    have hcase' (q' : Protocol) := lookup_adaptCases_of q' hcase
    obtain ⟨bs, hbs, rfl⟩ := (encode_variant_eq_ok (hcase' p)).1 hb
    exact (encode_variant_eq_ok (hcase' q)).2 ⟨bs, ih hbs, rfl⟩
  | struct hkeys hkeys' _ ih =>
    obtain ⟨parts, hparts, rfl⟩ := encode_struct_eq_ok.1 hb
    rw [adaptFields_eq_map, List.forall₂_map_left_iff] at hparts
    refine encode_struct_eq_ok.2 ⟨parts, ?_, rfl⟩
    rw [adaptFields_eq_map, List.forall₂_map_left_iff]
    exact forall₂_imp_of_mem hparts fun f hf bs => ih f hf
  | operation hcase _ ih =>
    have hcase' (q' : Protocol) := lookup_adaptCases_of q' hcase
    simp only [Schema.adapt_operationTable] at hcase'
    obtain ⟨bs, hbs, rfl⟩ := (encode_operation_eq_ok rfl (hcase' p)).1 hb
    exact (encode_operation_eq_ok rfl (hcase' q)).2 ⟨bs, ih hbs, rfl⟩

end Writing

end Codec

/-! ## Protocols -/

namespace Protocol

open Read

theorem wellFormed_sharedCodecs (p : Protocol) : allFields wellFormed p.sharedCodecs = true := rfl

theorem wellFormed_operationFields (p : Protocol) (id : OperationId) :
    all wellFormed (p.operationFields id) = true := by
  cases id <;> rfl

theorem all_wellFormed {p : Protocol} {a : Accessor} {c : Codec} (h : p.codec? a = some c) :
    all wellFormed c = true := by
  cases a with
  | whole name => exact all_of_mem_fields p.wellFormed_codecs (mem_of_lookup h)
  | shared name => exact all_of_mem_fields p.wellFormed_sharedCodecs (mem_of_lookup h)
  | fields id =>
    obtain rfl := Option.some.inj h
    exact p.wellFormed_operationFields id
  | object id =>
    simp only [codec?, chainObject?] at h
    split at h
    · split at h <;> cases h <;> rfl
    · split at h <;> cases h
      rfl
    · cases h

/-- Two codecs, one of each protocol, that do not tell the protocols apart on the
    wire: the same bytes are refused with the same error, or they stand for values
    that differ in prefixes only and are written as the same bytes again. -/
def SameWire (p q : Protocol) (c d : Codec) : Prop :=
  ∀ b : Bytes,
    (∃ halt, deserialize .live c b = .error halt ∧ deserialize .live d b = .error halt) ∨
    ∃ v w, deserialize .live c b = .ok v ∧ deserialize .live d b = .ok w ∧ Respelt p q c v w ∧
      ∃ out, ∀ writer, write .live c v writer = (.ok (), writer.append out) ∧
        write .live d w writer = (.ok (), writer.append out)

/-- Whatever two protocols are asked for, neither has it, or both have it and the
    configuration is not seen on the wire. -/
theorem configuration_off_the_wire (p q : Protocol) (a : Accessor) :
    Option.Rel (SameWire p q) (p.codec? a) (q.codec? a) := by
  rw [codec?_adapt p q a]
  cases hc : p.codec? a with
  | none => exact .none
  | some c =>
    refine .some fun b => ?_
    have hwell := all_wellFormed hc
    have hself := adapt_self hc
    have hwhole : Matched (Respelt p q c)
        (read .live c >>= fun v => Read.finish >>= fun _ => pure v)
        (read .live (c.adapt q) >>= fun w => Read.finish >>= fun _ => pure w) := by
      have hread := read_matched p q hwell
      rw [hself] at hread
      exact hread.bind fun v w h => .after Read.finish fun _ => matched_pure h
    rcases hwhole (.ofBytes b) with ⟨v, w, r, hv, hw, hrespelt⟩ | ⟨halt, r, hv, hw⟩
    · have hdeserialize : deserialize .live c b = .ok v := congrArg Prod.fst hv
      have hnames : DistinctNames .live c := fun _ hd =>
        nodup_of_wellFormed (hd.passes Registries.wellFormed_live hwell)
      obtain ⟨out, hout⟩ := (deserialize_eq_ok_iff.1 hdeserialize).exists_encode hnames
      have hout' := hrespelt.encode_eq_ok (by rwa [hself])
      exact .inr ⟨v, w, hdeserialize, congrArg Prod.fst hw, hrespelt, out, fun writer =>
        ⟨write_of_encode hout writer, write_of_encode hout' writer⟩⟩
    · exact .inl ⟨halt, congrArg Prod.fst hv, congrArg Prod.fst hw⟩

end Protocol

end ChainCodec
