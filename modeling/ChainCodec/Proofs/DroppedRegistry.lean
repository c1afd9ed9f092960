import ChainCodec.Proofs.Dropped.Normalizing
import ChainCodec.Proofs.Dropped.Reading
import ChainCodec.Proofs.Dropped.Rendering

/-! # A dropped registry gives no wrong answers

    The field schema of an operation does not keep the registry of its protocol
    alive.  When nothing else does, it still answers what it answered before,
    unless it comes to an operation inside, and then it says that the registry is
    gone.  Operations, transactions and blocks own the registry, and nothing
    changes for them. -/

namespace ChainCodec

/-! ## Answers -/

/-- What an answer may be after a loss, if `met` says whether the loss is noticed
    on the way. -/
structure NeverWrong {α : Type} (lost : α → Prop) (met : Prop) (before after : α) : Prop where
  same_or_lost : after = before ∨ lost after
  met_of_lost : lost after → met
  same_of_not_met : ¬ met → after = before

theorem Degrades.neverWrong {α : Type} {lost : α → Prop} {Q : Prop} {before after : α}
    (h : Degrades lost Q before after) (hbefore : ¬ lost before) :
    NeverWrong lost Q before after where
  same_or_lost := h.imp_right And.right
  met_of_lost hafter := by
    rcases h with rfl | ⟨hQ, _⟩
    · exact absurd hafter hbefore
    · exact hQ
  same_of_not_met := h.eq

namespace Codec

/-- The answers of a codec are those from before, or errors that tell of the
    registry, and these only where it comes to an operation. -/
structure NeverWrongAfter (env env' : Registries) (c : Codec) : Prop where
  normalize (v : Value) : NeverWrong (FailsWith Error.IsRegistry) (NormalizeMeets env c v)
    (normalize env c v) (normalize env' c v)
  write (v : Value) (w : Writer) : NeverWrong (fun outcome => FailsWith Error.IsRegistry outcome.1)
    (WriteMeets env c v) (write env c v w) (write env' c v w)
  read (r : Reader) : NeverWrong (fun outcome => FailsWith Halt.IsRegistry outcome.1)
    (ReadMeets env c r) (read env c r) (read env' c r)
  render (v : Value) : NeverWrong (FailsWith Error.IsRegistry) (RenderMeets env c v)
    (render env c v) (render env' c v)

/-- Nothing changes for the codec. -/
structure SameAfter (env env' : Registries) (c : Codec) : Prop where
  normalize (v : Value) : normalize env' c v = normalize env c v
  write (v : Value) (w : Writer) : write env' c v w = write env c v w
  read (r : Reader) : read env' c r = read env c r
  render (v : Value) : render env' c v = render env c v

/-- The codec only says that the registry is gone, whatever it is given. -/
structure SaysDropped (env : Registries) (c : Codec) : Prop where
  normalize (v : Value) : normalize env c v = .error (.ofRegistry .dropped)
  write (v : Value) (w : Writer) : write env c v w = (.error (.ofRegistry .dropped), w)
  read (r : Reader) : read env c r = (.error (.error (.ofRegistry .dropped)), r)
  render (v : Value) : render env c v = .error (.ofRegistry .dropped)

theorem SameAfter.refl (env : Registries) (c : Codec) : SameAfter env env c :=
  ⟨fun _ => rfl, fun _ _ => rfl, fun _ => rfl, fun _ => rfl⟩

/-- Codecs without operations inside never come to one. -/
theorem NeverWrongAfter.same {env env' : Registries} {c : Codec} (h : NeverWrongAfter env env' c)
    (hno : ∀ link, ¬ Reaches noTables c (.operation link)) : SameAfter env env' c where
  normalize v := (h.normalize v).same_of_not_met fun hmet => hmet.reaches.elim hno
  write v w := (h.write v w).same_of_not_met fun hmet => hmet.reaches_of_raw.elim hno
  read r := (h.read r).same_of_not_met fun hmet => hmet.reaches.elim hno
  render v := (h.render v).same_of_not_met fun hmet => hmet.reaches_of_raw.elim hno

theorem saysDropped_of_dropped {env : Registries} {link : OperationLink}
    (h : env link.registry = .dropped) : SaysDropped env (.operation link) := by
  have hunion : env.unionOf link.registry = .error (.ofRegistry .dropped) := by
    rw [Registries.unionOf, h]
    rfl
  constructor
  · intro v
    rw [normalize_operation, hunion]
    rfl
  · intro v w
    rw [write_operation, hunion]
    rfl
  · intro r
    rw [read_operation, hunion]
    rfl
  · intro v
    rw [render_operation, hunion]
    rfl

/-! ### With all tables -/

theorem not_isRegistry_of_encoding {e : Error} (h : e.OfEncoding False) : ¬ e.IsRegistry := by
  intro hregistry
  rcases h with h | ⟨_, h⟩
  · exact nomatch h.symm.trans hregistry
  · exact h

theorem not_isRegistry_of_decoding {e : Error} (h : e.OfDecoding False) : ¬ e.IsRegistry := by
  intro hregistry
  rcases h with h | ⟨_, h⟩
  · rw [Error.isDecode, hregistry] at h
    cases h
  · exact h

variable {env env' : Registries} {c : Codec}

section Tables

variable (htables : ¬ LacksTable env c)
include htables

theorem normalize_not_lost (v : Value) : ¬ FailsWith Error.IsRegistry (normalize env c v) := by
  rintro ⟨e, he, hregistry⟩
  exact not_isRegistry_of_encoding (normalize_raises htables v e he) hregistry

theorem render_not_lost (v : Value) : ¬ FailsWith Error.IsRegistry (render env c v) := by
  rintro ⟨e, he, hregistry⟩
  exact not_isRegistry_of_encoding (render_raises htables v e he) hregistry

theorem write_not_lost (v : Value) (w : Writer) :
    ¬ FailsWith Error.IsRegistry (write env c v w).1 := by
  rintro ⟨e, he, hregistry⟩
  exact not_isRegistry_of_encoding (write_raises htables v w e _ (Prod.ext he rfl)) hregistry

theorem read_not_lost (r : Reader) : ¬ FailsWith Halt.IsRegistry (read env c r).1 := by
  rintro ⟨_, hhalt, e, rfl, hregistry⟩
  rcases read_fails (Prod.ext hhalt rfl) with ⟨e', he', hdecoding⟩ | ⟨hoverflow, _⟩
  · obtain rfl := Halt.error.inj he'
    exact not_isRegistry_of_decoding (hdecoding.imp_right fun h => h.imp_right htables) hregistry
  · cases hoverflow

/-- A codec that lacks no table at first gives no wrong answers once its operations
    have lost theirs. -/
theorem neverWrongAfter_of_lost (hlost : OperationsLost env' c) (hsorts : SortsNoOperation c) :
    NeverWrongAfter env env' c where
  normalize v := (normalize_degrades hlost hsorts).neverWrong (normalize_not_lost htables v)
  write v w := (write_degrades hlost).neverWrong (write_not_lost htables v w)
  read r := (read_degrades hlost).neverWrong (read_not_lost htables r)
  render v := (render_degrades hlost).neverWrong (render_not_lost htables v)

theorem neverWrongAfter_self : NeverWrongAfter env env c where
  normalize v := (Degrades.refl _ _ _).neverWrong (normalize_not_lost htables v)
  write v w := (Degrades.refl _ _ _).neverWrong (write_not_lost htables v w)
  read r := (Degrades.refl _ _ _).neverWrong (read_not_lost htables r)
  render v := (Degrades.refl _ _ _).neverWrong (render_not_lost htables v)

end Tables

/-! ### What is sorted by -/

def isNoOperation : Codec → Bool
  | .operation _ => false
  | _ => true

/-- Whether a set or a map sorts by codecs without operations inside. -/
def sortsPlainly : Codec → Bool
  | .set c => all isNoOperation c
  | .map c _ => all isNoOperation c
  | _ => true

theorem sortsNoOperation_of_all (h : all sortsPlainly c = true) : SortsNoOperation c := by
  intro e he link hlink
  have hplain : all isNoOperation e = true := by
    rcases he with he | ⟨d, he⟩
    · exact (passes_of_component h he : sortsPlainly (.set e) = true)
    · exact (passes_of_component h he : sortsPlainly (.map e d) = true)
  exact Bool.false_ne_true (passes_of_component hplain hlink)

end Codec

/-! ## The registry of a protocol -/

namespace Registries

variable {env : Registries} {id : RegistryId} {kept : List Codec} {c : Codec}

theorem release_of_owner (hc : c ∈ kept) (howns : c.owns id = true) :
    env.release id kept = env := if_pos (List.any_eq_true.2 ⟨c, hc, howns⟩)

theorem release_of_no_owner (h : ∀ c ∈ kept, c.owns id = false) :
    env.release id kept = env.set id .dropped := by
  refine if_neg fun hany => ?_
  obtain ⟨c, hc, howns⟩ := List.any_eq_true.1 hany
  exact Bool.false_ne_true ((h c hc).symm.trans howns)

end Registries

namespace Protocol

open Codec

variable (p : Protocol)

/-- The protocol is set up, whatever became of others. -/
def setUp (others : Registries) : Registries :=
  others.set p.registry (.installed (Schema.operationTable p.registry))

/-- The codecs that own the registry. -/
def owners : List Codec :=
  [p.operation, p.feeEstimatingOperation, p.transaction, p.feeEstimatingTransaction,
    p.signedTransaction, p.processedTransaction, p.signedBlock]

theorem owns_of_mem_owners {c : Codec} (h : c ∈ p.owners) : c.owns p.registry = true := by
  have hoperation : p.operation.owns p.registry = true := decide_eq_true rfl
  have hestimate : p.feeEstimatingOperation.owns p.registry = true := decide_eq_true rfl
  simp only [owners, List.mem_cons, List.not_mem_nil, or_false] at h
  rcases h with rfl | rfl | rfl | rfl | rfl | rfl | rfl
  · exact hoperation
  · exact hestimate
  all_goals
    simp only [transaction, feeEstimatingTransaction, signedTransaction, processedTransaction,
      signedBlock, Schema.transaction, Schema.signedTransaction, Schema.processedTransaction,
      Schema.signedBlock, Schema.blockHeader, record, extend, List.cons_append, List.nil_append,
      owns, ownsFields, hoperation, hestimate, Bool.or_true, Bool.true_or]

theorem owns_operationFields (id : OperationId) :
    (p.operationFields id).owns p.registry = false := by
  cases id <;> rfl

theorem sortsPlainly_operationFields (id : OperationId) :
    all sortsPlainly (p.operationFields id) = true := by
  cases id <;> rfl

theorem neverWrongAfter_release (others : Registries) (id : OperationId) (kept : List Codec) :
    NeverWrongAfter (p.setUp others) ((p.setUp others).release p.registry kept)
      (p.operationFields id) := by
  have htables : ¬ LacksTable (p.setUp others) (p.operationFields id) :=
    (Gives.fields id).not_lacksTable (Registries.set_self _ _ _)
  by_cases hkept : kept.any (owns p.registry)
  · rw [Registries.release, if_pos hkept]
    exact neverWrongAfter_self htables
  · have hgone : NoTable ((p.setUp others).release p.registry kept) p.registry := by
      refine ⟨.dropped, ?_⟩
      rw [Registries.release, if_neg hkept, Registries.set_self]
      rfl
    exact neverWrongAfter_of_lost htables
      (operationsLost_of_refersTo hgone (Gives.fields id).all_refersTo)
      (sortsNoOperation_of_all (p.sortsPlainly_operationFields id))

/-- Only proposals have operations inside, so nothing changes for all others. -/
theorem sameAfter_release_of_ne_proposal (others : Registries) {id : OperationId}
    (hid : id ≠ .proposalCreate) (kept : List Codec) :
    SameAfter (p.setUp others) ((p.setUp others).release p.registry kept)
      (p.operationFields id) := by
  have hplain : all isNoOperation (p.operationFields id) = true := by
    cases id <;> first | rfl | exact absurd rfl hid
  exact (p.neverWrongAfter_release others id kept).same fun link hlink =>
    Bool.false_ne_true (passes_of_component hplain hlink)

/-- After a protocol and the other owners of its registry are gone, the field
    schema of an operation answers as before or tells of the registry, and the
    latter only where it comes to an operation, so that nothing changes for operations
    that are not proposals.  Field schemas by themselves do not keep the registry, and
    without it the operations inside them only say that it is gone.  Operations,
    transactions and blocks do keep it, and answer as before. -/
theorem dropped_registry_never_wrong (p : Protocol) (others : Registries) :
    (∀ id kept, NeverWrongAfter (p.setUp others) ((p.setUp others).release p.registry kept)
      (p.operationFields id)) ∧
    (∀ id kept, id ≠ .proposalCreate →
      SameAfter (p.setUp others) ((p.setUp others).release p.registry kept)
        (p.operationFields id)) ∧
    (∀ ids : List OperationId,
      SaysDropped ((p.setUp others).release p.registry (ids.map p.operationFields))
        (Schema.nestedOperation p.registry)) ∧
    ∀ c ∈ p.owners, ∀ kept, c ∈ kept →
      SameAfter (p.setUp others) ((p.setUp others).release p.registry kept) c := by
  refine ⟨p.neverWrongAfter_release others,
    fun id kept hid => p.sameAfter_release_of_ne_proposal others hid kept,
    fun ids => ?_, fun c hc kept hkept => ?_⟩
  · have hgone : (p.setUp others).release p.registry (ids.map p.operationFields) =
        (p.setUp others).set p.registry .dropped := by
      refine Registries.release_of_no_owner fun c hc => ?_
      obtain ⟨id, _, rfl⟩ := List.mem_map.1 hc
      exact p.owns_operationFields id
    rw [hgone]
    exact saysDropped_of_dropped (Registries.set_self _ _ _)
  · rw [Registries.release_of_owner hkept (p.owns_of_mem_owners hc)]
    exact .refl _ c

/-- A proposal of one operation comes to it, even though the bytes end there. -/
example : deserialize (Registries.live.release ({} : Protocol).registry [])
    (({} : Protocol).operationFields .proposalCreate) (List.replicate 14 0 ++ [1]) =
      .error (.error ⟨.registry, .registry .dropped,
        [.field "proposed_ops", .element 0, .field "op"]⟩) := rfl

end Protocol

end ChainCodec
