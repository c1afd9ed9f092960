import ChainCodec.Proofs.Dropped.Writing
import ChainCodec.Proofs.Rendering

/-! # Rendering without the registry

    A codec whose operations have no tables any more renders what it rendered with
    them, unless it comes to an operation, past parts that have a JSON form.
    Fields that are null are left out, and nothing in them is come to. -/

namespace ChainCodec.Codec

def HasJson (env : Registries) (c : Codec) (v : Value) : Prop := ∃ j, render env c v = .ok j

/-- The parts that are rendered. -/
abbrev renderedOperands : Codec → Value → List Operand := rawOperands Value.isNull

/-- Rendering comes to an operation. -/
abbrev RenderMeets (env : Registries) (c : Codec) (v : Value) : Prop :=
  Meets renderedOperands (HasJson env) c v

variable {env env' : Registries} {c d : Codec} {v : Value}

/-- An entry that is rendered consists of parts that are. -/
theorem hasJson_of_renderEntry {i : Nat} {entry : Value} {j : Json}
    (h : (do
      let (k, x) ← Check.canonicalEntry i entry
      let key ← Check.within (.key i) (render env c k)
      let value ← Check.within (.value i) (render env d x)
      pure (Json.arr [key, value])) = .ok j) :
    ∃ p, entry = Value.entry p ∧ HasJson env c p.1 ∧ HasJson env d p.2 := by
  obtain ⟨p, hp, h⟩ := Except.bind_eq_ok.1 h
  obtain ⟨key, hkey, h⟩ := Except.bind_eq_ok.1 h
  obtain ⟨value, hvalue, _⟩ := Except.bind_eq_ok.1 h
  exact ⟨p, Value.asPair?_eq_some.1 (Check.canonicalEntry_eq_ok.1 hp),
    ⟨key, Check.within_eq_ok.1 hkey⟩, ⟨value, Check.within_eq_ok.1 hvalue⟩⟩

section Composites

variable (ihc : ∀ v, ResultDegrades (RenderMeets env c v) (render env c v) (render env' c v))
include ihc

theorem renderElements_degrade {Q : Prop} (items : List Value)
    (hQ : ∀ before item after, items = before ++ item :: after →
      (∀ x ∈ before, HasJson env c x) → RenderMeets env c item → Q) :
    ResultDegrades Q
      (traverseFrom (fun i item => Check.within (.element i) (render env c item)) 0 items)
      (traverseFrom (fun i item => Check.within (.element i) (render env' c item)) 0 items) := by
  refine .traverseFrom (fun before item after i hitems hbefore => ?_) 0
  refine ResultDegrades.within ((ihc item).imp (hQ before item after hitems fun x hx => ?_)) _
  obtain ⟨_, j, hj⟩ := hbefore x hx
  exact ⟨j, Check.within_eq_ok.1 hj⟩

theorem render_vector_degrades :
    ResultDegrades (RenderMeets env (.vector c) v) (render env (.vector c) v)
      (render env' (.vector c) v) := by
  simp only [render, renderWith]
  refine .after _ fun items hitems => .bind ?_ fun _ _ => .refl _ _ _
  refine renderElements_degrade ihc items fun before item after has => ?_
  exact .of_element ((behind_ok hitems _).trans (congrArg _ has))

theorem render_set_degrades :
    ResultDegrades (RenderMeets env (.set c) v) (render env (.set c) v)
      (render env' (.set c) v) := by
  simp only [render, renderWith]
  refine .after _ fun items hitems => .bind ?_ fun _ _ => .refl _ _ _
  refine renderElements_degrade ihc items fun before item after has => ?_
  exact .of_element ((behind_ok hitems _).trans (congrArg _ has))

theorem render_optional_degrades :
    ResultDegrades (RenderMeets env (.optional c) v) (render env (.optional c) v)
      (render env' (.optional c) v) := by
  simp only [render, renderWith]
  split
  · exact .refl _ _ _
  · rename_i hnull
    exact (ihc v).imp (.of_single (if_neg hnull))

variable (ihd : ∀ v, ResultDegrades (RenderMeets env d v) (render env d v) (render env' d v))
include ihd

theorem render_pair_degrades :
    ResultDegrades (RenderMeets env (.pair c d) v) (render env (.pair c d) v)
      (render env' (.pair c d) v) := by
  simp only [render, renderWith]
  refine .after _ fun p hp => ?_
  have hoperands : renderedOperands (.pair c d) v = pairOperands c d p := behind_ok hp _
  refine .bind ((ihc p.1).imp (.of_first hoperands)) fun j hj => ?_
  exact .bind ((ihd p.2).imp (.of_second hoperands ⟨j, hj⟩)) fun _ _ => .refl _ _ _

theorem render_map_degrades :
    ResultDegrades (RenderMeets env (.map c d) v) (render env (.map c d) v)
      (render env' (.map c d) v) := by
  simp only [render, renderWith]
  refine .after _ fun items hitems => .bind (.traverseFrom (fun before item after i has hbefore =>
    ?_) 0) fun _ _ => .refl _ _ _
  obtain ⟨pairs, rfl, hpairs⟩ := exists_pairs fun x hx => by
    obtain ⟨j, u, h⟩ := hbefore x hx
    exact hasJson_of_renderEntry h
  refine .after _ fun p hp => ?_
  -- The entries before this one are rendered, and it is one itself.
  have hentries : leadingEntries items = pairs ++ p :: leadingEntries after := by
    rw [has, leadingEntries_append (Check.canonicalEntry_eq_ok.1 hp)]
  have hoperands : renderedOperands (.map c d) v =
      entryOperands c d (pairs ++ p :: leadingEntries after) :=
    (behind_ok hitems _).trans (congrArg _ hentries)
  refine .bind (ResultDegrades.within ((ihc p.1).imp (.of_key hoperands hpairs)) _)
    fun key hkey => ?_
  have hjson : HasJson env c p.1 := ⟨key, Check.within_eq_ok.1 hkey⟩
  exact .bind (ResultDegrades.within ((ihd p.2).imp (.of_value hoperands hpairs hjson)) _)
    fun _ _ => .refl _ _ _

end Composites

/-! ## Unions, structs and whole codecs -/

theorem renderCase_of_lookup_none {op : RenderOperation} {label : String} {tag : UInt32}
    {cases : CaseTable} {payload : Value} (h : cases.lookup tag = none) :
    renderCase op label tag cases payload = Check.fail (.unknownTag tag) := by
  refine (search_of_lookup_none (fun cases => renderCase op label tag cases payload)
    (fun c => Check.within (.variant label tag) (renderWith op c payload))
    (fun t d rest => ?_) h).trans ?_
  · rw [renderCase]
  · rw [renderCase]

theorem render_variant_degrades {label : String} {cases : CaseTable}
    (ih : ∀ case ∈ cases, ∀ v,
      ResultDegrades (RenderMeets env case.2 v) (render env case.2 v) (render env' case.2 v)) :
    ResultDegrades (RenderMeets env (.variant label cases) v) (render env (.variant label cases) v)
      (render env' (.variant label cases) v) := by
  simp only [render, renderWith]
  refine .after _ fun p hp => .after _ fun tag htag => ?_
  have hoperands : renderedOperands (.variant label cases) v =
      payloadOperands label cases tag p.2 := (behind_ok hp _).trans (behind_ok htag _)
  cases hcase : cases.lookup tag with
  | none =>
    rw [renderCase_of_lookup_none hcase, renderCase_of_lookup_none hcase]
    exact .refl _ _ _
  | some c =>
    rw [renderCase_of_lookup hcase, renderCase_of_lookup hcase]
    refine .bind (ResultDegrades.within ?_ _) fun _ _ => .refl _ _ _
    exact (ih _ (mem_of_lookup hcase) p.2).imp (.of_payload hoperands hcase)

theorem renderFields_degrades {Q : Prop} {fields : List (String × Codec)} {record : Record Value}
    (ih : ∀ f ∈ fields, ∀ v,
      ResultDegrades (RenderMeets env f.2 v) (render env f.2 v) (render env' f.2 v))
    (hQ : ∀ before f after,
      (fields.filter fun f => !(Value.field record f.1).isNull) = before ++ f :: after →
        (∀ g ∈ before, HasJson env g.2 (Value.field record g.1)) →
          RenderMeets env f.2 (Value.field record f.1) → Q) :
    ResultDegrades Q
      (renderFields (fun link v => renderOperation env (v.arrayDepth + 1) link v) fields record)
      (renderFields (fun link v => renderOperation env' (v.arrayDepth + 1) link v) fields
        record) := by
  induction fields with
  | nil => simp only [renderFields]; exact .refl _ _ _
  | cons f fields ihfields =>
    simp only [renderFields]
    have hrest := ihfields fun g hg => ih g (by simp [hg])
    split
    · rename_i hnull
      refine hrest fun before g after hfields => hQ before g after ?_
      rw [← hfields]
      simp [hnull]
    · rename_i hnull
      have hfilter : ((f :: fields).filter fun f => !(Value.field record f.1).isNull) =
          f :: fields.filter fun f => !(Value.field record f.1).isNull := by
        simp [hnull]
      rw [hfilter] at hQ
      have hhead := ih f (by simp) (Value.field record f.1)
      refine .bind (ResultDegrades.within (hhead.imp (hQ [] f _ rfl (by simp))) _) fun j hj => ?_
      refine .bind (hrest fun before g after hfields hbefore => ?_) fun _ _ => .refl _ _ _
      refine hQ (f :: before) g after (by rw [hfields, List.cons_append]) fun x hx => ?_
      rcases List.mem_cons.1 hx with rfl | hx
      · exact ⟨j, Check.within_eq_ok.1 hj⟩
      · exact hbefore x hx

theorem render_struct_degrades {fields : List (String × Codec)} {ignoreUnknown : Bool}
    (ih : ∀ f ∈ fields, ∀ v,
      ResultDegrades (RenderMeets env f.2 v) (render env f.2 v) (render env' f.2 v)) :
    ResultDegrades (RenderMeets env (.struct fields ignoreUnknown) v)
      (render env (.struct fields ignoreUnknown) v)
      (render env' (.struct fields ignoreUnknown) v) := by
  simp only [render, renderWith]
  refine .after _ fun record hv => .bind ?_ fun _ _ => .refl _ _ _
  refine renderFields_degrades ih fun before f after hfields => ?_
  exact .of_field ((behind_ok hv _).trans (congrArg (fieldOperands · record) hfields))

/-- A codec renders without tables what it renders with them, unless it comes to an
    operation. -/
theorem render_degrades (hlost : OperationsLost env' c) :
    ResultDegrades (RenderMeets env c v) (render env c v) (render env' c v) := by
  induction c using Codec.induction generalizing v with
  | h c ih =>
  have ih' (d : Codec) (hd : Inside noTables c d) (v : Value) :
      ResultDegrades (RenderMeets env d v) (render env d v) (render env' d v) :=
    ih d hd (hlost.inside hd)
  cases c with
  | vector c => exact render_vector_degrades (ih' c .vector)
  | set c => exact render_set_degrades (ih' c .set)
  | map c d => exact render_map_degrades (ih' c .key) (ih' d .value)
  | optional c => exact render_optional_degrades (ih' c .optional)
  | pair c d => exact render_pair_degrades (ih' c .first) (ih' d .second)
  | variant label cases => exact render_variant_degrades fun case h => ih' _ (.case h)
  | struct fields ignoreUnknown => exact render_struct_degrades fun f h => ih' _ (.field h)
  | operation link =>
    refine .inr ⟨⟨[], link, v, .here⟩, ?_⟩
    obtain ⟨e, he, hkind⟩ := (hlost link (.refl _)).unionOf
    rw [render_operation, he]
    exact ⟨e, rfl, hkind⟩
  | int | varint | bool | bytes | string | time | void | objectId | anyObjectId | publicKey
  | address =>
    simp only [render, renderWith]
    exact .refl _ _ _

end ChainCodec.Codec
