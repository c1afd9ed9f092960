import ChainCodec.Proofs.Checks
import ChainCodec.Proofs.Integers
import ChainCodec.Proofs.Records
import ChainCodec.Proofs.Shape
import ChainCodec.Proofs.Unfolding.Render

/-! # The JSON of canonical values

    One lemma for each form of codec says what JSON a canonical value is
    rendered as: that of its parts, where null fields of a struct are left
    out.

    A canonical value can always be rendered: `exists_render`.  Only null is
    rendered as null. -/

namespace ChainCodec

namespace Value

/-- The integers that JSON numbers are used for, from the least signed one to the
    greatest unsigned one. -/
theorem fitsWord_iff {n : Int} :
    fitsWord n = true ↔ -9223372036854775808 ≤ n ∧ n < 18446744073709551616 := by
  have hsize : UInt64.size = 18446744073709551616 := rfl
  rw [fitsWord, Bool.and_eq_true, decide_eq_true_eq, decide_eq_true_eq, hsize]
  omega

theorem fitsWord_uint32 (n : UInt32) : fitsWord n.toNat = true := by
  have := n.toNat_lt
  exact fitsWord_iff.2 (by omega)

end Value

namespace Codec

variable {env : Registries} {c d : Codec} {v raw : Value} {j : Json}

/-! ## Scalars -/

theorem render_int {t : IntType} {n : Int} (hlow : t.least ≤ n) (hhigh : n ≤ t.greatest) :
    render env (.int t) (.int n) =
      .ok (if t.isText then .str (Decimal.render n) else .int n) := by
  have hn : Check.canonicalInteger t.name (.int n) = .ok n := rfl
  simp only [render, renderWith]
  -- In its bounds the number does not wrap.
  rw [Except.bind_ok hn, IntType.wrap_of_bounds hlow hhigh]
  rfl

theorem render_varint (n : UInt32) :
    render env .varint (.int n.toNat) = .ok (.int n.toNat) := by
  simp only [render, renderWith, Value.toJson, Value.intToJson, Value.fitsWord_uint32, if_true]

/-- The text is a time that is read as the same seconds. -/
theorem exists_render_time (env : Registries) (n : UInt32) :
    ∃ text, render env .time (.int n.toNat) = .ok (.str text) ∧
      Check.seconds (.str text) = .ok (n.toNat : Int) := by
  obtain ⟨text, hrender, hseconds⟩ := Check.exists_seconds_render n
  have hn : Check.canonicalInteger Check.timeName (.int n.toNat) = .ok (n.toNat : Int) := rfl
  refine ⟨text, ?_, hseconds⟩
  simp only [render, renderWith]
  rw [Except.bind_ok hn, hrender]
  rfl

theorem render_objectId {space type : UInt8} {more : List UInt8} {id : ObjectId}
    (hspace : id.space = space) (htype : id.type ∈ type :: more)
    (hinst : id.inst.toNat < UInt32.size) :
    render env (.objectId space type more) (.str id.render) = .ok (.str id.render) := by
  simp only [render, renderWith]
  rw [Except.bind_ok (Check.objectId_render hspace htype hinst)]
  rfl

theorem render_anyObjectId (id : ObjectId) :
    render env .anyObjectId (.str id.render) = .ok (.str id.render) := by
  simp only [render, renderWith]
  rw [Except.bind_ok (Check.anyObjectId_render id)]
  rfl

theorem render_address {scheme : AddressScheme} {start : String} {bs : Bytes} {a : Address}
    (h : Address.ofBytes scheme bs = .ok a) :
    render env (.address scheme start) (.str (a.render start)) =
      .ok (.str (a.render start)) := by
  simp only [render, renderWith]
  rw [Except.bind_ok (Check.address_render start h)]
  rfl

/-! ## Composites -/

theorem renderItems_eq_ok {op : RenderOperation} {items : List Value} :
    (do
      let js ← traverseFrom (fun i item =>
        Check.within (.element i) (renderWith op c item)) 0 items
      pure (Json.arr js)) = .ok j ↔
      ∃ js, List.Forall₂ (fun item j => renderWith op c item = .ok j) items js ∧ j = .arr js := by
  have hstep : ∀ (i : Nat) (item : Value) (j : Json),
      Check.within (.element i) (renderWith op c item) = .ok j ↔ renderWith op c item = .ok j :=
    fun _ _ _ => Check.within_eq_ok
  simp only [Except.bind_eq_ok, Except.pure_eq_ok, traverseFrom_eq_ok hstep, eq_comm (b := j)]

theorem render_vector_eq_ok {items : List Value} :
    render env (.vector c) (.array items) = .ok j ↔
      ∃ js, List.Forall₂ (fun item j => render env c item = .ok j) items js ∧ j = .arr js := by
  rw [render, renderWith, Except.bind_ok (Check.array_eq_ok.2 rfl)]
  exact renderItems_eq_ok

theorem render_set_eq_ok {items : List Value} :
    render env (.set c) (.array items) = .ok j ↔
      ∃ js, List.Forall₂ (fun item j => render env c item = .ok j) items js ∧ j = .arr js := by
  rw [render, renderWith, Except.bind_ok (Check.array_eq_ok.2 rfl)]
  exact renderItems_eq_ok

/-- A map is rendered as an array of pairs. -/
theorem render_map_eq_ok {pairs : List (Value × Value)} :
    render env (.map c d) (.array (pairs.map Value.entry)) = .ok j ↔
      ∃ qs : List (Json × Json),
        List.Forall₂ (fun p q => render env c p.1 = .ok q.1 ∧ render env d p.2 = .ok q.2)
          pairs qs ∧
        j = .arr (qs.map fun q => .arr [q.1, q.2]) := by
  have hstep : ∀ (i : Nat) (item : Value) (j : Json),
      (Check.canonicalEntry i item >>= fun p =>
        Check.within (.key i) (render env c p.1) >>= fun key =>
        Check.within (.value i) (render env d p.2) >>= fun value =>
        pure (Json.arr [key, value])) = .ok j ↔
      ∃ q : Json × Json,
        (∃ p, item = Value.entry p ∧ render env c p.1 = .ok q.1 ∧ render env d p.2 = .ok q.2) ∧
          j = .arr [q.1, q.2] := by
    intro i item j
    simp only [Except.bind_eq_ok, Except.pure_eq_ok, Check.within_eq_ok,
      Check.canonicalEntry_eq_ok]
    constructor
    · intro h
      rcases h with ⟨p, hp, key, hkey, value, hvalue, rfl⟩
      exact ⟨(key, value), ⟨p, Value.asPair?_eq_some.1 hp, hkey, hvalue⟩, rfl⟩
    · intro h
      rcases h with ⟨q, ⟨p, rfl, hkey, hvalue⟩, rfl⟩
      exact ⟨p, Value.asPair?_entry p, q.1, hkey, q.2, hvalue, rfl⟩
  rw [render, renderWith, Except.bind_ok (Check.canonicalEntries_eq_ok.2 rfl)]
  simp only [Except.bind_eq_ok, Except.pure_eq_ok]
  constructor
  · intro h
    rcases h with ⟨js, hjs, rfl⟩
    -- The keys and values that were rendered, taken out of their arrays.
    obtain ⟨qs, hqs, rfl⟩ := exists_forall₂_map ((traverseFrom_eq_ok hstep).1 hjs)
    rw [List.forall₂_map_left_iff] at hqs
    refine ⟨qs, hqs.imp fun p q hq => ?_, rfl⟩
    obtain ⟨p', hp, hq⟩ := hq
    rwa [← Value.entry_injective hp] at hq
  · intro h
    rcases h with ⟨qs, hqs, rfl⟩
    refine ⟨_, (traverseFrom_eq_ok hstep).2 ?_, rfl⟩
    rw [List.forall₂_map_left_iff, List.forall₂_map_right_iff]
    exact hqs.imp fun p q hq => ⟨q, ⟨p, rfl, hq⟩, rfl⟩

theorem render_optional (hnull : v.isNull = false) :
    render env (.optional c) v = render env c v := by
  simp only [render, renderWith, hnull, Bool.false_eq_true, if_false]

theorem render_pair_eq_ok {a b : Value} :
    render env (.pair c d) (.array [a, b]) = .ok j ↔
      ∃ ja jb, render env c a = .ok ja ∧ render env d b = .ok jb ∧ j = .arr [ja, jb] := by
  rw [render, renderWith, Except.bind_ok (Check.pair_eq_ok.2 rfl)]
  simp only [Except.bind_eq_ok, Except.pure_eq_ok]
  constructor
  · intro h
    rcases h with ⟨ja, hja, jb, hjb, rfl⟩
    exact ⟨ja, jb, hja, hjb, rfl⟩
  · intro h
    rcases h with ⟨ja, jb, hja, hjb, rfl⟩
    exact ⟨ja, hja, jb, hjb, rfl⟩

theorem renderCase_of_lookup {op : RenderOperation} {label : String} {tag : UInt32}
    {cases : CaseTable} {payload : Value} (h : cases.lookup tag = some c) :
    renderCase op label tag cases payload =
      Check.within (.variant label tag) (renderWith op c payload) := by
  refine search_of_lookup (fun cases => renderCase op label tag cases payload)
    (fun c => Check.within (.variant label tag) (renderWith op c payload)) (fun t d rest => ?_) h
  rw [renderCase]

theorem render_variant_eq_ok {label : String} {cases : CaseTable} {tag : UInt32}
    {payload : Value} (hcase : cases.lookup tag = some c) :
    render env (.variant label cases) (.array [.int tag.toNat, payload]) = .ok j ↔
      ∃ jp, render env c payload = .ok jp ∧ j = .arr [.int tag.toNat, jp] := by
  rw [render, renderWith, Except.bind_ok (Check.tagged_eq_ok.2 rfl)]
  simp only [Except.bind_ok (Check.tag_uint32 tag), renderCase_of_lookup hcase,
    Except.bind_eq_ok, Except.pure_eq_ok, Check.within_eq_ok]
  constructor
  · intro h
    rcases h with ⟨jp, hjp, rfl⟩
    exact ⟨jp, hjp, rfl⟩
  · intro h
    rcases h with ⟨jp, hjp, rfl⟩
    exact ⟨jp, hjp, rfl⟩

theorem render_operation_eq_ok {link : OperationLink} {table : CaseTable} {tag : UInt32}
    {payload : Value} (htable : (env link.registry).table = .ok table)
    (hcase : table.lookup tag = some c) :
    render env (.operation link) (.array [.int tag.toNat, payload]) = .ok j ↔
      ∃ jp, render env c payload = .ok jp ∧ j = .arr [.int tag.toNat, jp] := by
  have hunion := Registries.unionOf_eq_ok.2 ⟨table, htable, rfl⟩
  rw [render_operation, Except.bind_ok hunion]
  exact render_variant_eq_ok hcase

/-- The fields of the schema that are not null in the record. -/
def presentFields (fields : List (String × Codec)) (record : Record Value) :
    List (String × Codec) :=
  fields.filter fun f => !(Value.field record f.1).isNull

theorem renderFields_eq_ok {op : RenderOperation} {fields : List (String × Codec)}
    {record : Record Value} {js : List (String × Json)} :
    renderFields op fields record = .ok js ↔
      List.Forall₂ (fun f g => g.1 = f.1 ∧
        renderWith op f.2 (Value.field record f.1) = .ok g.2) (presentFields fields record) js := by
  induction fields generalizing js with
  | nil =>
    simp only [renderFields, presentFields, List.filter_nil, List.forall₂_nil_left_iff,
      Except.ok.injEq]
    exact eq_comm
  | cons f rest ih =>
    obtain ⟨name, c⟩ := f
    unfold presentFields at ih ⊢
    simp only [renderFields]
    -- A null field is skipped, and is not among the fields that are present.
    by_cases hnull : (Value.field record name).isNull = true
    · rw [if_pos hnull, List.filter_cons_of_neg (by simp [hnull]), ih]
    · rw [if_neg hnull, List.filter_cons_of_pos (by simp [hnull]), List.forall₂_cons_left_iff]
      simp only [Except.bind_eq_ok, Except.pure_eq_ok, Check.within_eq_ok, ih]
      constructor
      · intro h
        rcases h with ⟨j, hj, js', hjs', rfl⟩
        exact ⟨(name, j), js', ⟨rfl, hj⟩, hjs', rfl⟩
      · intro h
        rcases h with ⟨⟨_, j⟩, js', ⟨rfl, hj⟩, hjs', rfl⟩
        exact ⟨j, hj, js', hjs', rfl⟩

section PresentFields

variable {R : String × Codec → String × Json → Prop} {fields : List (String × Codec)}
  {record : Record Value} {js : List (String × Json)}

theorem names_of_presentFields
    (h : List.Forall₂ (fun f g => g.1 = f.1 ∧ R f g) (presentFields fields record) js) :
    js.map Prod.fst = (presentFields fields record).map Prod.fst := by
  rw [← List.forall₂_eq_eq_eq, List.forall₂_map_left_iff, List.forall₂_map_right_iff]
  exact h.flip.imp fun _ _ hg => hg.1

theorem nodup_of_presentFields (hdistinct : (fields.map Prod.fst).Nodup)
    (h : List.Forall₂ (fun f g => g.1 = f.1 ∧ R f g) (presentFields fields record) js) :
    (js.map Prod.fst).Nodup := by
  rw [names_of_presentFields h]
  exact (List.filter_sublist.map Prod.fst).nodup hdistinct

end PresentFields

theorem render_struct_eq_ok {fields : List (String × Codec)} {ignoreUnknown : Bool}
    {record : Record Value} (hdistinct : (fields.map Prod.fst).Nodup) :
    render env (.struct fields ignoreUnknown) (.object record) = .ok j ↔
      ∃ js, List.Forall₂ (fun f g => g.1 = f.1 ∧
        render env f.2 (Value.field record f.1) = .ok g.2) (presentFields fields record) js ∧
          j = .obj js := by
  rw [render, renderWith, Except.bind_ok (Check.object_eq_ok.2 rfl)]
  simp only [Except.bind_eq_ok, Except.pure_eq_ok, renderFields_eq_ok]
  constructor
  · intro h
    rcases h with ⟨js, hjs, rfl⟩
    rw [Record.ofList_of_nodup (nodup_of_presentFields hdistinct hjs)]
    exact ⟨js, hjs, rfl⟩
  · intro h
    rcases h with ⟨js, hjs, rfl⟩
    refine ⟨js, hjs, ?_⟩
    rw [Record.ofList_of_nodup (nodup_of_presentFields hdistinct hjs)]

/-! ## Rendering succeeds -/

variable {P : Codec → Value → Prop}

theorem exists_render (h : Shaped env P c raw) : ∃ j, render env c raw = .ok j := by
  induction h with
  | int _ hlow hhigh => exact ⟨_, render_int hlow hhigh⟩
  | varint _ => exact ⟨_, render_varint _⟩
  | bool _ | bytes _ _ | string _ | void _ | absent _ | publicKey _ _ => exact ⟨_, rfl⟩
  | time _ =>
    -- 32 bits of seconds end before the years take five digits.
    obtain ⟨text, htext, _⟩ := exists_render_time env _
    exact ⟨_, htext⟩
  | vector _ _ ih =>
    obtain ⟨js, hjs⟩ := exists_forall₂ ih
    exact ⟨_, render_vector_eq_ok.2 ⟨js, hjs, rfl⟩⟩
  | set _ _ ih =>
    obtain ⟨js, hjs⟩ := exists_forall₂ ih
    exact ⟨_, render_set_eq_ok.2 ⟨js, hjs, rfl⟩⟩
  | @map c d _ pairs _ hpairs _ _ ihkeys ihvalues =>
    subst hpairs
    have hjson : ∀ p ∈ pairs, ∃ q : Json × Json,
        render env c p.1 = .ok q.1 ∧ render env d p.2 = .ok q.2 := by
      intro p hp
      obtain ⟨key, hkey⟩ := ihkeys p hp
      obtain ⟨value, hvalue⟩ := ihvalues p hp
      exact ⟨(key, value), hkey, hvalue⟩
    obtain ⟨qs, hqs⟩ := exists_forall₂ hjson
    exact ⟨_, render_map_eq_ok.2 ⟨qs, hqs, rfl⟩⟩
  | present _ hnull _ ih =>
    rw [render_optional hnull]
    exact ih
  | pair _ _ _ iha ihb =>
    obtain ⟨ja, hja⟩ := iha
    obtain ⟨jb, hjb⟩ := ihb
    exact ⟨_, render_pair_eq_ok.2 ⟨ja, jb, hja, hjb, rfl⟩⟩
  | variant _ htag hcase _ ih =>
    subst htag
    obtain ⟨jp, hjp⟩ := ih
    exact ⟨_, (render_variant_eq_ok hcase).2 ⟨jp, hjp, rfl⟩⟩
  | @struct fields _ record _ hdistinct _ _ ih =>
    have hjson : ∀ f ∈ presentFields fields record, ∃ g : String × Json, g.1 = f.1 ∧
        render env f.2 (Value.field record f.1) = .ok g.2 := by
      intro f hf
      -- All fields can be rendered, not only those that are.
      obtain ⟨j, hj⟩ := ih f (List.mem_filter.1 hf).1
      exact ⟨(f.1, j), rfl, hj⟩
    obtain ⟨js, hjs⟩ := exists_forall₂ hjson
    exact ⟨_, (render_struct_eq_ok hdistinct).2 ⟨js, hjs, rfl⟩⟩
  | objectId _ hspace htype hinst => exact ⟨_, render_objectId hspace htype hinst⟩
  | anyObjectId _ _ => exact ⟨_, render_anyObjectId _⟩
  | address _ hbytes => exact ⟨_, render_address hbytes⟩
  | operation _ htable htag hcase _ ih =>
    subst htag
    obtain ⟨jp, hjp⟩ := ih
    exact ⟨_, (render_operation_eq_ok htable hcase).2 ⟨jp, hjp, rfl⟩⟩

/-- Only null is rendered as null. -/
theorem render_ne_null (h : Shaped env P c raw) (hnull : raw.isNull = false) :
    render env c raw ≠ .ok .null := by
  intro hj
  induction h with
  | @int t _ _ hlow hhigh =>
    rw [render_int hlow hhigh] at hj
    by_cases htext : t.isText = true
    · simp [htext] at hj
    · simp [htext, Json.int] at hj
  | varint _ =>
    rw [render_varint] at hj
    cases hj
  | bool _ | bytes _ _ | string _ | publicKey _ _ => cases hj
  | void _ | absent _ => cases hnull
  | time _ =>
    obtain ⟨text, htext, _⟩ := exists_render_time env _
    rw [htext] at hj
    cases hj
  | vector _ _ _ =>
    obtain ⟨_, _, hj⟩ := render_vector_eq_ok.1 hj
    cases hj
  | set _ _ _ =>
    obtain ⟨_, _, hj⟩ := render_set_eq_ok.1 hj
    cases hj
  | map _ hpairs _ _ _ _ =>
    subst hpairs
    obtain ⟨_, _, hj⟩ := render_map_eq_ok.1 hj
    cases hj
  | present _ _ _ ih =>
    rw [render_optional hnull] at hj
    exact ih hnull hj
  | pair _ _ _ _ _ =>
    obtain ⟨_, _, _, _, hj⟩ := render_pair_eq_ok.1 hj
    cases hj
  | variant _ htag hcase _ _ =>
    subst htag
    obtain ⟨_, _, hj⟩ := (render_variant_eq_ok hcase).1 hj
    cases hj
  | struct _ hdistinct _ _ _ =>
    obtain ⟨_, _, hj⟩ := (render_struct_eq_ok hdistinct).1 hj
    cases hj
  | objectId _ hspace htype hinst =>
    rw [render_objectId hspace htype hinst] at hj
    cases hj
  | anyObjectId _ _ =>
    rw [render_anyObjectId] at hj
    cases hj
  | address _ hbytes =>
    rw [render_address hbytes] at hj
    cases hj
  | operation _ htable htag hcase _ _ =>
    subst htag
    obtain ⟨_, _, hj⟩ := (render_operation_eq_ok htable hcase).1 hj
    cases hj

/-- Null is rendered as null unless it is the only value of the codec. -/
theorem render_null (h : Shaped env P c .null) (hc : c ≠ .void) :
    render env c .null = .ok .null := by
  cases h with
  | void _ => exact absurd rfl hc
  | absent _ => rfl
  | present _ hnull _ => cases hnull

end Codec

end ChainCodec
