import ChainCodec.Proofs.Dropped.Writing
import ChainCodec.Proofs.Visits

/-! # Normalizing without the registry

    A codec whose operations have no tables any more gives the canonical values that
    it gave with them, unless it comes to an operation, past parts that are
    accepted.

    Sets and maps also write what they sort by, so nothing that they sort by may
    have operations inside. -/

namespace ChainCodec.Codec

/-- Normalizing comes to an operation. -/
abbrev NormalizeMeets (env : Registries) (c : Codec) (v : Value) : Prop :=
  Meets (operands env) (Accepted env) c v

/-- Nothing that sets and maps sort by has operations inside. -/
def SortsNoOperation (c : Codec) : Prop :=
  ∀ e, (Reaches noTables c (.set e) ∨ ∃ d, Reaches noTables c (.map e d)) →
    ∀ link, ¬ Reaches noTables e (.operation link)

theorem SortsNoOperation.inside {c d : Codec} (h : SortsNoOperation c)
    (hd : Inside noTables c d) : SortsNoOperation d := fun e he =>
  h e (he.imp (.head hd) fun ⟨f, hf⟩ => ⟨f, .head hd hf⟩)

variable {env env' : Registries} {c d : Codec} {v : Value}

theorem NormalizeMeets.reaches (h : NormalizeMeets env c v) :
    ∃ link, Reaches noTables c (.operation link) := by
  refine Meets.reaches (fun d u o hd ho => ?_) h
  have hsource : Source env d u o.codec o.value :=
    source_of_mem_operands (fun link hlink => absurd hlink (hd link)) ho
  exact hsource.inside.withoutTables hd

/-- Where there are no operations, nothing is lost. -/
theorem encode_eq_of_no_operation (h : ∀ link, ¬ Reaches noTables c (.operation link)) :
    encode env' c v = encode env c v := by
  have hlost : OperationsLost env' c := fun link hlink => absurd hlink (h link)
  have hmeets : ¬ WriteMeets env c v := fun hmeets => by
    obtain ⟨link, hlink⟩ := Meets.reaches_of_raw hmeets
    exact h link hlink
  have hwrite : write env' c v .empty = write env c v .empty := (write_degrades hlost).eq hmeets
  rw [encode, encode, Write.run, Write.run, hwrite]

section Composites

variable (ihc : ∀ v, ResultDegrades (NormalizeMeets env c v) (normalize env c v)
  (normalize env' c v))
include ihc

theorem normalize_vector_degrades :
    ResultDegrades (NormalizeMeets env (.vector c) v) (normalize env (.vector c) v)
      (normalize env' (.vector c) v) := by
  simp only [normalize, normalizeWith]
  refine .after _ fun items hitems => .bind (.traverseFrom (fun before item after i has hbefore =>
    ?_) 0) fun _ _ => .refl _ _ _
  have haccepted : ∀ x ∈ before, Accepted env c x := fun x hx => by
    obtain ⟨_, raw, hraw⟩ := hbefore x hx
    exact ⟨raw, Check.within_eq_ok.1 hraw⟩
  have hoperands := (behind_ok hitems (elementOperands c)).trans (congrArg _ has)
  exact ResultDegrades.within ((ihc item).imp (.of_element hoperands haccepted)) _

theorem normalize_set_degrades (hbytes : ∀ v, encode env' c v = encode env c v) :
    ResultDegrades (NormalizeMeets env (.set c) v) (normalize env (.set c) v)
      (normalize env' (.set c) v) := by
  rw [normalize_set, normalize_set]
  refine .after _ fun items hitems => .bind (.traverseFrom (fun before item after i has hbefore =>
    ?_) 0) fun _ _ => .refl _ _ _
  have haccepted : ∀ x ∈ before, Accepted env c x := fun x hx => by
    obtain ⟨_, entry, hentry⟩ := hbefore x hx
    exact ⟨entry.2, ((normalizeElement_eq_ok _ _ _).1 hentry).1⟩
  have hoperands := (behind_ok hitems (elementOperands c)).trans (congrArg _ has)
  refine .bind (ResultDegrades.within ((ihc item).imp (.of_element hoperands haccepted)) _)
    fun raw _ => ?_
  rw [hbytes raw]
  exact .refl _ _ _

theorem normalize_optional_degrades :
    ResultDegrades (NormalizeMeets env (.optional c) v) (normalize env (.optional c) v)
      (normalize env' (.optional c) v) := by
  rw [normalize_optional, normalize_optional]
  split
  · exact .refl _ _ _
  · rename_i hnull
    exact (ihc v.resolve).imp (.of_single (if_neg hnull))

variable (ihd : ∀ v, ResultDegrades (NormalizeMeets env d v) (normalize env d v)
  (normalize env' d v))
include ihd

theorem normalize_pair_degrades :
    ResultDegrades (NormalizeMeets env (.pair c d) v) (normalize env (.pair c d) v)
      (normalize env' (.pair c d) v) := by
  simp only [normalize, normalizeWith]
  refine .after _ fun p hp => ?_
  have hoperands : operands env (.pair c d) v = pairOperands c d p := behind_ok hp _
  refine .bind (ResultDegrades.within ((ihc p.1).imp (.of_first hoperands)) _) fun a ha => ?_
  have haccepted : Accepted env c p.1 := ⟨a, Check.within_eq_ok.1 ha⟩
  exact .bind (ResultDegrades.within ((ihd p.2).imp (.of_second hoperands haccepted)) _)
    fun _ _ => .refl _ _ _

theorem normalize_map_degrades (hbytes : ∀ v, encode env' c v = encode env c v) :
    ResultDegrades (NormalizeMeets env (.map c d) v) (normalize env (.map c d) v)
      (normalize env' (.map c d) v) := by
  rw [normalize_map, normalize_map]
  refine .after _ fun pairs hpairs => .bind (.traverseFrom (fun before p after i has hbefore =>
    ?_) 0) fun _ _ => .refl _ _ _
  have hoperands : operands env (.map c d) v = entryOperands c d (before ++ p :: after) :=
    (behind_ok hpairs _).trans (congrArg _ has)
  have haccepted : ∀ x ∈ before, Accepted env c x.1 ∧ Accepted env d x.2 := fun x hx => by
    obtain ⟨_, entry, hentry⟩ := hbefore x hx
    obtain ⟨y, hkey, hvalue, _⟩ := (normalizeEntry_eq_ok _ _ _).1 hentry
    exact ⟨⟨y.1, hkey⟩, ⟨y.2, hvalue⟩⟩
  refine .bind (ResultDegrades.within ((ihc p.1).imp (.of_key hoperands haccepted)) _)
    fun key hkey => ?_
  have hkey : Accepted env c p.1 := ⟨key, Check.within_eq_ok.1 hkey⟩
  refine .bind (ResultDegrades.within ((ihd p.2).imp (.of_value hoperands haccepted hkey)) _)
    fun value _ => ?_
  rw [hbytes key]
  exact .refl _ _ _

end Composites

/-! ## Unions, structs and whole codecs -/

theorem normalizeCase_of_lookup {bytesOf : EncodeElement} {op : NormalizeOperation}
    {label : String} {tag : UInt32} {cases : CaseTable} {payload : Value}
    (h : cases.lookup tag = some c) :
    normalizeCase bytesOf op label tag cases payload =
      Check.within (.variant label tag) (normalizeWith bytesOf op c payload) := by
  refine search_of_lookup (fun cases => normalizeCase bytesOf op label tag cases payload)
    (fun c => Check.within (.variant label tag) (normalizeWith bytesOf op c payload))
    (fun t d rest => ?_) h
  rw [normalizeCase]

theorem normalizeCase_of_lookup_none {bytesOf : EncodeElement} {op : NormalizeOperation}
    {label : String} {tag : UInt32} {cases : CaseTable} {payload : Value}
    (h : cases.lookup tag = none) :
    normalizeCase bytesOf op label tag cases payload = Check.fail (.unknownTag tag) := by
  refine (search_of_lookup_none (fun cases => normalizeCase bytesOf op label tag cases payload)
    (fun c => Check.within (.variant label tag) (normalizeWith bytesOf op c payload))
    (fun t d rest => ?_) h).trans ?_
  · rw [normalizeCase]
  · rw [normalizeCase]

theorem normalize_variant_degrades {label : String} {cases : CaseTable}
    (ih : ∀ case ∈ cases, ∀ v, ResultDegrades (NormalizeMeets env case.2 v)
      (normalize env case.2 v) (normalize env' case.2 v)) :
    ResultDegrades (NormalizeMeets env (.variant label cases) v)
      (normalize env (.variant label cases) v) (normalize env' (.variant label cases) v) := by
  simp only [normalize, normalizeWith]
  refine .after _ fun p hp => .after _ fun tag htag => ?_
  have hoperands : operands env (.variant label cases) v =
      payloadOperands label cases tag p.2 := (behind_ok hp _).trans (behind_ok htag _)
  cases hcase : cases.lookup tag with
  | none =>
    rw [normalizeCase_of_lookup_none hcase, normalizeCase_of_lookup_none hcase]
    exact .refl _ _ _
  | some c =>
    rw [normalizeCase_of_lookup hcase, normalizeCase_of_lookup hcase]
    refine .bind (ResultDegrades.within ?_ _) fun _ _ => .refl _ _ _
    exact (ih _ (mem_of_lookup hcase) p.2).imp (.of_payload hoperands hcase)

theorem normalizeFields_degrades {Q : Prop} {fields : List (String × Codec)}
    {record : Record Value}
    (ih : ∀ f ∈ fields, ∀ v,
      ResultDegrades (NormalizeMeets env f.2 v) (normalize env f.2 v) (normalize env' f.2 v))
    (hQ : ∀ before f after, fields = before ++ f :: after →
      (∀ g ∈ before, Accepted env g.2 (Value.field record g.1)) →
        NormalizeMeets env f.2 (Value.field record f.1) → Q) :
    ResultDegrades Q
      (normalizeFields (encode env)
        (fun link v => normalizeOperation env (v.arrayDepth + 1) link v) fields record)
      (normalizeFields (encode env')
        (fun link v => normalizeOperation env' (v.arrayDepth + 1) link v) fields record) := by
  induction fields with
  | nil => simp only [normalizeFields]; exact .refl _ _ _
  | cons f fields ihfields =>
    simp only [normalizeFields]
    have hhead := ih f (by simp) (Value.field record f.1)
    refine .bind (ResultDegrades.within (hhead.imp (hQ [] f _ rfl (by simp))) _)
      fun raw hraw => ?_
    refine .bind (ihfields (fun g hg => ih g (by simp [hg])) fun before g after hfields hbefore =>
      ?_) fun _ _ => .refl _ _ _
    refine hQ (f :: before) g after (by rw [hfields, List.cons_append]) fun x hx => ?_
    rcases List.mem_cons.1 hx with rfl | hx
    · exact ⟨raw, Check.within_eq_ok.1 hraw⟩
    · exact hbefore x hx

theorem normalize_struct_degrades {fields : List (String × Codec)} {ignoreUnknown : Bool}
    (ih : ∀ f ∈ fields, ∀ v,
      ResultDegrades (NormalizeMeets env f.2 v) (normalize env f.2 v) (normalize env' f.2 v)) :
    ResultDegrades (NormalizeMeets env (.struct fields ignoreUnknown) v)
      (normalize env (.struct fields ignoreUnknown) v)
      (normalize env' (.struct fields ignoreUnknown) v) := by
  simp only [normalize, normalizeWith]
  refine .after _ fun record hv => .after _ fun _ hkeys => .bind ?_ fun _ _ => .refl _ _ _
  refine normalizeFields_degrades ih fun before f after hfields => ?_
  have hoperands : operands env (.struct fields ignoreUnknown) v =
      fieldOperands (before ++ f :: after) record := by
    rw [← hfields]
    exact (behind_ok hv _).trans (behind_ok hkeys _)
  exact .of_field hoperands

/-- A codec gives the canonical values without tables that it gives with them,
    unless it comes to an operation. -/
theorem normalize_degrades (hlost : OperationsLost env' c)
    (hsorts : SortsNoOperation c) :
    ResultDegrades (NormalizeMeets env c v) (normalize env c v) (normalize env' c v) := by
  induction c using Codec.induction generalizing v with
  | h c ih =>
  have ih' (d : Codec) (hd : Inside noTables c d) (v : Value) :
      ResultDegrades (NormalizeMeets env d v) (normalize env d v) (normalize env' d v) :=
    ih d hd (hlost.inside hd) (hsorts.inside hd)
  cases c with
  | vector c => exact normalize_vector_degrades (ih' c .vector)
  | set c =>
    exact normalize_set_degrades (ih' c .set) fun _ =>
      encode_eq_of_no_operation (hsorts c (.inl (.refl _)))
  | map c d =>
    exact normalize_map_degrades (ih' c .key) (ih' d .value) fun _ =>
      encode_eq_of_no_operation (hsorts c (.inr ⟨d, .refl _⟩))
  | optional c => exact normalize_optional_degrades (ih' c .optional)
  | pair c d => exact normalize_pair_degrades (ih' c .first) (ih' d .second)
  | variant label cases => exact normalize_variant_degrades fun case h => ih' _ (.case h)
  | struct fields ignoreUnknown => exact normalize_struct_degrades fun f h => ih' _ (.field h)
  | operation link =>
    refine .inr ⟨⟨[], link, v, .here⟩, ?_⟩
    obtain ⟨e, he, hkind⟩ := (hlost link (.refl _)).unionOf
    rw [normalize_operation, he]
    exact ⟨e, rfl, hkind⟩
  | int | varint | bool | bytes | string | time | void | objectId | anyObjectId | publicKey
  | address =>
    simp only [normalize, normalizeWith]
    exact .refl _ _ _

end ChainCodec.Codec
