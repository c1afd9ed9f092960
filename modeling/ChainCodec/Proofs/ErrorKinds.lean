import ChainCodec.Proofs.Faults.Decoding
import ChainCodec.Proofs.WellFormed

/-! # The kind of an error tells the phase

    Values are refused with errors of validation, and bytes with errors of
    decoding.  A registry is to blame only where an operation codec has no
    table, which does not happen to the codecs of a protocol as long as its own
    table is installed, whatever became of other protocols. -/

namespace ChainCodec

/-! ## The codecs of a protocol -/

/-- The codecs that a protocol gives out. -/
inductive Protocol.Gives (p : Protocol) : Codec → Prop
  | whole {entry : String × Codec} (h : entry ∈ p.codecs) : Gives p entry.2
  | shared {entry : String × Codec} (h : entry ∈ p.sharedCodecs) : Gives p entry.2
  | fields (id : OperationId) : Gives p (p.operationFields id)
  | object {id : ObjectId} {c : Codec} (h : p.chainObject? id = some c) : Gives p c

namespace Codec

/-- Whether an operation codec refers to the registry. -/
def refersTo (id : RegistryId) : Codec → Bool
  | .operation link => decide (link.registry = id)
  | _ => true

theorem all_refersTo_operation {link : OperationLink} {id : RegistryId} (h : link.registry = id) :
    all (refersTo id) (.operation link) = true := decide_eq_true h

/-- Only proposals have operations inside. -/
theorem all_refersTo_fieldsOf {id : RegistryId} {nested : Codec}
    (h : all (refersTo id) nested = true) (config : ChainConfig) (op : OperationId) :
    all (refersTo id) (record (Schema.fieldsOf config nested op)) = true := by
  by_cases hop : op = .proposalCreate
  · subst hop
    simp only [record, Schema.fieldsOf, Schema.bodyOf, List.cons_append, List.nil_append, all,
      allFields, h]
    rfl
  · cases op <;> first | rfl | exact absurd rfl hop

theorem all_refersTo_nested (id : RegistryId) :
    all (refersTo id) (record [("op", Schema.nestedOperation id)]) = true := by
  have h : all (refersTo id) (Schema.nestedOperation id) = true := all_refersTo_operation rfl
  simp only [record, all, allFields, h]
  rfl

theorem allCases_refersTo_operationTable (id : RegistryId) :
    allCases (refersTo id) (Schema.operationTable id) = true := by
  refine allCases_of_forall fun case hcase => ?_
  obtain ⟨op, _, rfl⟩ := List.mem_map.1 hcase
  exact all_refersTo_fieldsOf (all_refersTo_nested id) id.config op

end Codec

namespace Protocol

open Codec

variable {p : Protocol} {c : Codec}

/-- All operation codecs of a protocol refer to its own registry. -/
theorem Gives.all_refersTo (h : p.Gives c) : all (refersTo p.registry) c = true := by
  cases h with
  | whole hentry =>
    have hcodecs : allFields (refersTo p.registry) p.codecs = true := by
      have hoperation : all (refersTo p.registry) p.operation = true := all_refersTo_operation rfl
      have hestimate : all (refersTo p.registry) p.feeEstimatingOperation = true :=
        all_refersTo_operation rfl
      simp only [codecs, transaction, feeEstimatingTransaction, signedTransaction,
        processedTransaction, signedBlock, Schema.transaction, Schema.signedTransaction,
        Schema.processedTransaction, Schema.signedBlock, Schema.blockHeader, record, extend,
        List.cons_append, List.nil_append, all, allFields, hoperation, hestimate]
      rfl
    exact all_of_mem_fields hcodecs hentry
  | shared hentry =>
    have hshared : allFields (refersTo p.registry) p.sharedCodecs = true := rfl
    exact all_of_mem_fields hshared hentry
  | fields id => exact all_refersTo_fieldsOf (all_refersTo_nested p.registry) p.config id
  | object h =>
    unfold chainObject? at h
    split at h
    · split at h <;> cases h <;> rfl
    · split at h <;> cases h
      rfl
    · cases h

/-- Where the table of a protocol is installed, none of its codecs lacks one. -/
theorem Gives.not_lacksTable {env : Registries} (h : p.Gives c)
    (henv : env p.registry = .installed (Schema.operationTable p.registry)) :
    ¬ LacksTable env c := by
  rintro ⟨link, hreaches, hregistry⟩
  have hlink : refersTo p.registry (.operation link) = true := by
    refine hreaches.passes_of_links (fun link' table hlink' htable => ?_) h.all_refersTo
    rw [of_decide_eq_true hlink', henv] at htable
    obtain rfl := Except.ok.inj htable
    exact allCases_refersTo_operationTable p.registry
  rw [of_decide_eq_true hlink, henv] at hregistry
  cases hregistry

end Protocol

/-! ## All phases -/

namespace Codec

variable {env : Registries} {c : Codec}

/-- Bytes of a fixed number are asked for that some codec inside names, and
    numbers of 32 bits that come from the wire. -/
def AsksFor (env : Registries) (c : Codec) (n : Nat) : Prop :=
  n < UInt32.size ∨ Reaches env c (.bytes (some n))

theorem read_fails {r r' : Reader} {halt : Halt} (h : read env c r = (.error halt, r')) :
    (∃ e, halt = .error e ∧ e.OfDecoding (LacksTable env c)) ∨
      halt = .overflow ∧ r.Overflows (AsksFor env c) :=
  (read_raises (fun _ => .inl) id fun _ => .inr).2 r halt r' h

theorem deserialize_fails {b : Bytes} {halt : Halt} (h : deserialize env c b = .error halt) :
    (∃ e, halt = .error e ∧ e.OfDecoding (LacksTable env c)) ∨
      halt = .overflow ∧ (Reader.ofBytes b).Overflows (AsksFor env c) := by
  simp only [deserialize, Action.bind_apply] at h
  rcases hread : read env c (.ofBytes b) with ⟨halt' | v, r⟩
  · rw [hread] at h
    cases h
    exact read_fails hread
  · rw [hread] at h
    -- Bytes that are left over are refused as well.
    by_cases hremaining : r.remaining = 0
    · simp only [Read.finish, if_pos hremaining] at h
      cases h
    · simp only [Read.finish, if_neg hremaining] at h
      cases h
      exact .inl ⟨_, rfl, .inl rfl⟩

theorem readAt_fails {b : Bytes} {offset : Nat} {halt : Halt}
    (h : readAt env c b offset = .error halt) :
    (∃ e, halt = .error e ∧ e.OfDecoding (LacksTable env c)) ∨
      halt = .overflow ∧ Reader.Overflows (AsksFor env c) (.ofBytes b) := by
  by_cases hoffset : b.length < offset
  · simp only [readAt, Reader.at?, if_pos hoffset] at h
    cases h
    exact .inl ⟨_, rfl, .inl rfl⟩
  · simp only [readAt, Reader.at?, if_neg hoffset] at h
    rcases hread : read env c { Reader.ofBytes b with cursor := offset } with ⟨halt' | v, r⟩
    · rw [hread] at h
      cases h
      refine (read_fails hread).imp_right fun hover => ⟨hover.1, fun _ => hover.2 ?_⟩
      exact Nat.not_lt.1 hoffset
    · rw [hread] at h
      cases h

theorem serialize_raises (v : Value) : Check.Raises (LacksTable env c) (serialize env c v) :=
  (normalize_raises id v).bind fun raw => encode_raises id raw

theorem validate_raises (v : Value) : Check.Raises (LacksTable env c) (validate env c v) :=
  (normalize_raises id v).bind fun _ => Check.raises_ok ()

/-- Encoding fails with errors of validation and decoding with errors of
    decoding; both fail for want of a table if an operation codec lacks it,
    which the codecs of a protocol with its table do not.  Decoding stops
    without an error only if a number of bytes is asked for that goes past the
    last address. -/
theorem error_kinds (env : Registries) (c : Codec) :
    (∀ v e, (normalize env c v = .error e ∨ validate env c v = .error e ∨
        serialize env c v = .error e ∨ render env c v = .error e ∨
          ∃ w w', write env c v w = (.error e, w')) →
        e.OfEncoding (LacksTable env c)) ∧
      (∀ (r r' : Reader) (halt : Halt), read env c r = (.error halt, r') →
        (∃ e, halt = .error e ∧ e.OfDecoding (LacksTable env c)) ∨
          halt = .overflow ∧ r.Overflows (AsksFor env c)) ∧
      (∀ (b : Bytes) (offset : Nat) (halt : Halt), (deserialize env c b = .error halt ∨
          readAt env c b offset = .error halt) →
        (∃ e, halt = .error e ∧ e.OfDecoding (LacksTable env c)) ∨
          halt = .overflow ∧ ∃ n, AsksFor env c n ∧ addressLimit ≤ b.length + n) ∧
      ∀ p : Protocol, p.Gives c →
        env p.registry = .installed (Schema.operationTable p.registry) → ¬ LacksTable env c := by
  refine ⟨fun v e h => ?_, fun r r' halt h => read_fails h, fun b offset halt h => ?_,
    fun p h henv => h.not_lacksTable henv⟩
  · rcases h with h | h | h | h | ⟨w, w', h⟩
    · exact normalize_raises id v e h
    · exact validate_raises v e h
    · exact serialize_raises v e h
    · exact render_raises id v e h
    · exact write_raises id v w e w' h
  · -- A reader of the whole buffer has its cursor inside.
    have hlength (hover : (Reader.ofBytes b).Overflows (AsksFor env c)) :
        ∃ n, AsksFor env c n ∧ addressLimit ≤ b.length + n := hover (Nat.zero_le _)
    rcases h with h | h
    · exact (deserialize_fails h).imp_right fun h => ⟨h.1, hlength h.2⟩
    · exact (readAt_fails h).imp_right fun h => ⟨h.1, hlength h.2⟩

/-- A codec may ask for so many bytes that their end has no address, and then
    it stops without an error of any kind. -/
theorem readAt_pastLastAddress :
    readAt .live (fixedBytes 18446744073709551615) [0] 1 = .error .overflow := rfl

end Codec

end ChainCodec
