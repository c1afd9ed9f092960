import ChainCodec.Proofs.Degrading
import ChainCodec.Proofs.ErrorKinds
import ChainCodec.Proofs.Idempotence
import ChainCodec.Proofs.Walks

/-! # Writing without the registry

    A codec whose operations have no tables any more writes what it wrote with
    them, unless it comes to an operation, past parts that have bytes. -/

namespace ChainCodec.Codec

/-- The registry has no table any more. -/
def NoTable (env : Registries) (id : RegistryId) : Prop :=
  ∃ fault, (env id).table = .error (.ofRegistry fault)

theorem NoTable.unionOf {env : Registries} {id : RegistryId} (h : NoTable env id) :
    FailsWith Error.IsRegistry (env.unionOf id) := by
  obtain ⟨fault, h⟩ := h
  refine ⟨.ofRegistry fault, ?_, rfl⟩
  rw [Registries.unionOf, h]
  rfl

/-- The operations that the codec is built from have no tables any more. -/
def OperationsLost (env : Registries) (c : Codec) : Prop :=
  ∀ link, Reaches noTables c (.operation link) → NoTable env link.registry

theorem OperationsLost.inside {env : Registries} {c d : Codec} (h : OperationsLost env c)
    (hd : Inside noTables c d) : OperationsLost env d := fun link hlink => h link (.head hd hlink)

/-- A test that all passes is passed by what the codec is built from. -/
theorem passes_of_component {test : Codec → Bool} {c d : Codec} (hc : all test c = true)
    (h : Reaches noTables c d) : test d = true := h.passes (fun _ _ htable => by cases htable) hc

theorem operationsLost_of_refersTo {env : Registries} {id : RegistryId} {c : Codec}
    (h : NoTable env id) (hc : all (refersTo id) c = true) : OperationsLost env c := by
  intro link hlink
  rw [of_decide_eq_true (passes_of_component hc hlink)]
  exact h

def HasBytes (env : Registries) (c : Codec) (v : Value) : Prop := ∃ b, encode env c v = .ok b

/-- The parts that are written. -/
abbrev writtenOperands : Codec → Value → List Operand := rawOperands fun _ => false

/-- Writing comes to an operation. -/
abbrev WriteMeets (env : Registries) (c : Codec) (v : Value) : Prop :=
  Meets writtenOperands (HasBytes env) c v

abbrev WriteDegrades (Q : Prop) (x y : Write Unit) (w : Writer) : Prop :=
  ActionDegrades Error.IsRegistry Q x y w

variable {env env' : Registries} {c d : Codec} {v : Value} {w : Writer}

theorem hasBytes_of_write {u : Unit} {w' : Writer} (h : write env c v w = (.ok u, w')) :
    ∃ b, encode env c v = .ok b := (write_eq_ok_iff w).1 (by rw [h])

theorem hasBytes_of_within {i : Context} {u : Unit} {w' : Writer}
    (h : Write.within i (write env c v) w = (.ok u, w')) : HasBytes env c v := by
  simp only [Write.within, Action.mapError] at h
  rcases hwrite : write env c v w with ⟨e | u, t⟩
  · rw [hwrite] at h
    cases h
  · exact hasBytes_of_write hwrite

/-- One part is written behind a step. -/
theorem write_within_degrades {Q : Prop} (h : WriteDegrades Q (write env c v) (write env' c v) w)
    (i : Context) : WriteDegrades Q (Write.within i (write env c v))
      (Write.within i (write env' c v)) w :=
  h.mapError fun _ he => he.within i

/-- An entry that is written consists of parts that have bytes. -/
theorem hasBytes_of_writeEntry {i : Nat} {entry : Value} {u : Unit} {w' : Writer}
    (h : (do
      let (k, x) ← (liftM (Check.canonicalEntry i entry) : Write (Value × Value))
      Write.within (.key i) (write env c k)
      Write.within (.value i) (write env d x)) w = (.ok u, w')) :
    ∃ p, entry = Value.entry p ∧ HasBytes env c p.1 ∧ HasBytes env d p.2 := by
  obtain ⟨p, t, hp, h⟩ := Action.bind_eq_ok.1 h
  obtain ⟨_, _, hkey, hvalue⟩ := Action.bind_eq_ok.1 h
  have hp := Check.canonicalEntry_eq_ok.1 (congrArg Prod.fst hp)
  exact ⟨p, Value.asPair?_eq_some.1 hp, hasBytes_of_within hkey, hasBytes_of_within hvalue⟩

section Composites

variable (ihc : ∀ v w, WriteDegrades (WriteMeets env c v) (write env c v) (write env' c v) w)
include ihc

theorem writeElements_degrade {Q : Prop} (items : List Value)
    (hQ : ∀ before item after, items = before ++ item :: after →
      (∀ x ∈ before, HasBytes env c x) → WriteMeets env c item → Q) :
    WriteDegrades Q
      (do
        let _ ← traverseFrom (fun i item => Write.within (.element i) (write env c item)) 0 items
        pure ())
      (do
        let _ ← traverseFrom (fun i item => Write.within (.element i) (write env' c item)) 0 items
        pure ()) w := by
  refine .bind (.traverseFrom (fun before item after i t hitems hbefore => ?_) 0 w)
    fun _ _ _ => .refl _ _ _
  refine write_within_degrades ((ihc item t).imp (hQ before item after hitems fun x hx => ?_)) _
  obtain ⟨_, _, _, _, hwrite⟩ := hbefore x hx
  exact hasBytes_of_within hwrite

theorem write_vector_degrades :
    WriteDegrades (WriteMeets env (.vector c) v) (write env (.vector c) v)
      (write env' (.vector c) v) w := by
  simp only [write, writeWith]
  refine .after _ fun items t hitems => .after _ fun _ t' _ => ?_
  refine writeElements_degrade ihc items fun before item after has => ?_
  exact .of_element ((behind_ok (congrArg Prod.fst hitems) _).trans (congrArg _ has))

theorem write_set_degrades :
    WriteDegrades (WriteMeets env (.set c) v) (write env (.set c) v)
      (write env' (.set c) v) w := by
  simp only [write, writeWith]
  refine .after _ fun items t hitems => .after _ fun _ t' _ => ?_
  refine writeElements_degrade ihc items fun before item after has => ?_
  exact .of_element ((behind_ok (congrArg Prod.fst hitems) _).trans (congrArg _ has))

theorem write_optional_degrades :
    WriteDegrades (WriteMeets env (.optional c) v) (write env (.optional c) v)
      (write env' (.optional c) v) w := by
  simp only [write, writeWith]
  split
  · exact .refl _ _ _
  · rename_i hnull
    exact .after _ fun _ t _ => (ihc v t).imp (.of_single (if_neg hnull))

variable (ihd : ∀ v w, WriteDegrades (WriteMeets env d v) (write env d v) (write env' d v) w)
include ihd

theorem write_pair_degrades :
    WriteDegrades (WriteMeets env (.pair c d) v) (write env (.pair c d) v)
      (write env' (.pair c d) v) w := by
  simp only [write, writeWith]
  refine .after _ fun p t hp => ?_
  have hoperands : writtenOperands (.pair c d) v = pairOperands c d p :=
    behind_ok (congrArg Prod.fst hp) _
  refine .bind (write_within_degrades ((ihc p.1 t).imp (.of_first hoperands)) _)
    fun _ t' hfirst => ?_
  exact write_within_degrades ((ihd p.2 t').imp
    (.of_second hoperands (hasBytes_of_within hfirst))) _

theorem write_map_degrades :
    WriteDegrades (WriteMeets env (.map c d) v) (write env (.map c d) v)
      (write env' (.map c d) v) w := by
  simp only [write, writeWith]
  refine .after _ fun items t hitems => .after _ fun _ t' _ => ?_
  refine .bind (.traverseFrom (fun before item after i s has hbefore => ?_) 0 t')
    fun _ _ _ => .refl _ _ _
  obtain ⟨pairs, rfl, hpairs⟩ := exists_pairs fun x hx => by
    obtain ⟨j, s, u, s', h⟩ := hbefore x hx
    exact hasBytes_of_writeEntry h
  refine .after _ fun p s' hp => ?_
  -- The entries before this one have bytes, and it is one itself.
  have hentries : leadingEntries items = pairs ++ p :: leadingEntries after := by
    rw [has, leadingEntries_append (Check.canonicalEntry_eq_ok.1 (congrArg Prod.fst hp))]
  have hoperands : writtenOperands (.map c d) v =
      entryOperands c d (pairs ++ p :: leadingEntries after) :=
    (behind_ok (congrArg Prod.fst hitems) _).trans (congrArg _ hentries)
  refine .bind (write_within_degrades ((ihc p.1 s').imp (.of_key hoperands hpairs)) _)
    fun _ s'' hkey => ?_
  exact write_within_degrades ((ihd p.2 s'').imp
    (.of_value hoperands hpairs (hasBytes_of_within hkey))) _

end Composites

/-! ## Unions, structs and whole codecs -/

theorem writeCase_of_lookup_none {op : WriteOperation} {label : String} {tag : UInt32}
    {cases : CaseTable} {payload : Value} (h : cases.lookup tag = none) :
    writeCase op label tag cases payload = Write.fail (.unknownTag tag) := by
  refine (search_of_lookup_none (fun cases => writeCase op label tag cases payload) (fun c => do
      Write.varint tag
      Write.within (.variant label tag) (writeWith op c payload)) (fun t d rest => ?_) h).trans ?_
  · rw [writeCase]
  · rw [writeCase]

theorem write_variant_degrades {label : String} {cases : CaseTable}
    (ih : ∀ case ∈ cases, ∀ v w,
      WriteDegrades (WriteMeets env case.2 v) (write env case.2 v) (write env' case.2 v) w) :
    WriteDegrades (WriteMeets env (.variant label cases) v) (write env (.variant label cases) v)
      (write env' (.variant label cases) v) w := by
  simp only [write, writeWith]
  refine .after _ fun p t hp => .after _ fun tag t' htag => ?_
  have hoperands : writtenOperands (.variant label cases) v =
      payloadOperands label cases tag p.2 :=
    (behind_ok (congrArg Prod.fst hp) _).trans (behind_ok (congrArg Prod.fst htag) _)
  cases hcase : cases.lookup tag with
  | none =>
    rw [writeCase_of_lookup_none hcase, writeCase_of_lookup_none hcase]
    exact .refl _ _ _
  | some c =>
    rw [writeCase_of_lookup hcase, writeCase_of_lookup hcase]
    refine .after _ fun _ t'' _ => write_within_degrades ?_ _
    exact (ih _ (mem_of_lookup hcase) p.2 t'').imp (.of_payload hoperands hcase)

theorem writeFields_degrades {Q : Prop} {fields : List (String × Codec)} {record : Record Value}
    (ih : ∀ f ∈ fields, ∀ v w,
      WriteDegrades (WriteMeets env f.2 v) (write env f.2 v) (write env' f.2 v) w)
    (hQ : ∀ before f after, fields = before ++ f :: after →
      (∀ g ∈ before, HasBytes env g.2 (Value.field record g.1)) →
        WriteMeets env f.2 (Value.field record f.1) → Q) :
    WriteDegrades Q
      (writeFields (fun link v => writeOperation env (v.arrayDepth + 1) link v) fields record)
      (writeFields (fun link v => writeOperation env' (v.arrayDepth + 1) link v) fields record)
      w := by
  induction fields generalizing w with
  | nil => simp only [writeFields]; exact .refl _ _ _
  | cons f fields ihfields =>
    simp only [writeFields]
    have hhead := ih f (by simp) (Value.field record f.1) w
    refine .bind (write_within_degrades (hhead.imp (hQ [] f fields rfl (by simp))) _)
      fun _ t hwrite => ?_
    refine ihfields (fun g hg => ih g (by simp [hg])) fun before g after hfields hbefore => ?_
    refine hQ (f :: before) g after (by rw [hfields, List.cons_append]) fun x hx => ?_
    rcases List.mem_cons.1 hx with rfl | hx
    · exact hasBytes_of_within hwrite
    · exact hbefore x hx

theorem write_struct_degrades {fields : List (String × Codec)} {ignoreUnknown : Bool}
    (ih : ∀ f ∈ fields, ∀ v w,
      WriteDegrades (WriteMeets env f.2 v) (write env f.2 v) (write env' f.2 v) w) :
    WriteDegrades (WriteMeets env (.struct fields ignoreUnknown) v)
      (write env (.struct fields ignoreUnknown) v)
      (write env' (.struct fields ignoreUnknown) v) w := by
  simp only [write, writeWith]
  refine .after _ fun record t hv => ?_
  refine writeFields_degrades ih fun before f after hfields => ?_
  have hoperands : writtenOperands (.struct fields ignoreUnknown) v =
      fieldOperands (before ++ f :: after) record := by
    rw [← hfields]
    refine (behind_ok (congrArg Prod.fst hv) _).trans ?_
    simp only [Bool.not_false, List.filter_true]
  exact .of_field hoperands

/-- A codec writes without tables what it writes with them, unless it comes to an
    operation. -/
theorem write_degrades (hlost : OperationsLost env' c) :
    WriteDegrades (WriteMeets env c v) (write env c v) (write env' c v) w := by
  induction c using Codec.induction generalizing v w with
  | h c ih =>
  have ih' (d : Codec) (hd : Inside noTables c d) (v : Value) (w : Writer) :
      WriteDegrades (WriteMeets env d v) (write env d v) (write env' d v) w :=
    ih d hd (hlost.inside hd)
  cases c with
  | vector c => exact write_vector_degrades (ih' c .vector)
  | set c => exact write_set_degrades (ih' c .set)
  | map c d => exact write_map_degrades (ih' c .key) (ih' d .value)
  | optional c => exact write_optional_degrades (ih' c .optional)
  | pair c d => exact write_pair_degrades (ih' c .first) (ih' d .second)
  | variant label cases => exact write_variant_degrades fun case h => ih' _ (.case h)
  | struct fields ignoreUnknown => exact write_struct_degrades fun f h => ih' _ (.field h)
  | operation link =>
    refine .inr ⟨⟨[], link, v, .here⟩, ?_⟩
    obtain ⟨e, he, hkind⟩ := (hlost link (.refl _)).unionOf
    rw [write_operation, he]
    exact ⟨e, rfl, hkind⟩
  | int | varint | bool | bytes | string | time | void | objectId | anyObjectId | publicKey
  | address =>
    simp only [write, writeWith]
    exact .refl _ _ _

end ChainCodec.Codec
