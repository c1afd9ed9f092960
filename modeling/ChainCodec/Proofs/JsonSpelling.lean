import ChainCodec.Proofs.Rendering
import ChainCodec.Proofs.Respelling

/-! # JSON respells canonical values

    Canonical values are written as JSON in two ways, with the schema and
    without it.  Both change scalars, and with the schema null fields are left
    out as well; normalization undoes either, part by part. -/

namespace ChainCodec

/-! ## Reading JSON -/

namespace Value

theorem ofJsonItems_eq (items : List Json) : ofJsonItems items = items.map ofJson := by
  induction items with
  | nil => rfl
  | cons j js ih => rw [ofJsonItems, ih, List.map_cons]

theorem ofJsonFields_eq (fields : List (String × Json)) :
    ofJsonFields fields = fields.map fun f => (f.1, ofJson f.2) := by
  induction fields with
  | nil => rfl
  | cons f rest ih => rw [ofJsonFields, ih, List.map_cons]

theorem toJsonItems_eq (items : List Value) : toJsonItems items = items.map toJson := by
  induction items with
  | nil => rfl
  | cons v vs ih => rw [toJsonItems, ih, List.map_cons]

theorem toJsonFields_eq (fields : List (String × Value)) :
    toJsonFields fields = fields.map fun f => (f.1, toJson f.2) := by
  induction fields with
  | nil => rfl
  | cons f rest ih => rw [toJsonFields, ih, List.map_cons]

theorem ofJson_int (n : Int) : ofJson (.int n) = .int n := rfl

theorem ofNumber_spec (x : JsonNumber) :
    (ofNumber x).resolve = ofNumber x ∧ (ofNumber x).isNull = false := by
  fun_cases ofNumber x <;> exact ⟨rfl, rfl⟩

/-- Nothing that comes from JSON is lazy. -/
theorem resolve_ofJson (j : Json) : (ofJson j).resolve = ofJson j := by
  cases j with
  | num x => exact (ofNumber_spec x).1
  | _ => rfl

theorem eq_null_of_ofJson {j : Json} (h : (ofJson j).isNull = true) : j = .null := by
  cases j with
  | null => rfl
  | num x =>
    rw [ofJson, (ofNumber_spec x).2] at h
    cases h
  | _ => cases h

theorem ofJson_intToJson {n : Int} (h : fitsWord n = true) : ofJson (intToJson n) = .int n := by
  rw [intToJson, if_pos h, ofJson_int]

theorem ofJson_toJson_tagged (tag : UInt32) (payload : Value) :
    ofJson (array [.int tag.toNat, payload]).toJson =
      .array [.int tag.toNat, ofJson payload.toJson] := by
  have hwrite : (array [.int tag.toNat, payload]).toJson =
      .arr [intToJson tag.toNat, payload.toJson] := rfl
  have hread (j j' : Json) : ofJson (.arr [j, j']) = .array [ofJson j, ofJson j'] := rfl
  rw [hwrite, hread, ofJson_intToJson (fitsWord_uint32 tag)]

end Value

namespace Codec

open Respells

variable {env : Registries} {c d : Codec} {v raw : Value}

theorem respells_intText {t : IntType} {n : Int} (hlow : t.least ≤ n) (hhigh : n ≤ t.greatest) :
    Respells env (.int t) (.str (Decimal.render n)) (.int n) := by
  obtain ⟨hleast, hgreatest⟩ := IntType.decimal_bounds hlow hhigh
  refine of_not_object (Except.bind_eq_ok.2 ⟨n, ?_, rfl⟩) (by simp [Value.resolve])
  exact Check.integer_render hlow hhigh hleast hgreatest

theorem respells_hexText {size : Option Nat} {bs : Bytes} (hsize : ∀ n ∈ size, bs.length = n) :
    Respells env (.bytes size) (.str (Hex.encode bs)) (.bytes bs) := by
  refine of_not_object (Except.bind_eq_ok.2 ⟨bs, Check.bytes_encode bs,
    Except.bind_eq_ok.2 ⟨bs, ?_, rfl⟩⟩) (by simp [Value.resolve])
  exact Check.byteCount_eq_ok.2 ⟨rfl, hsize⟩

/-! ## Without the schema -/

theorem field_map {record : Record Value} {g : Value → Value} (hnull : g .null = .null)
    (name : String) :
    Value.field (record.map fun f => (f.1, g f.2)) name = g (Value.field record name) := by
  induction record with
  | nil => exact hnull.symm
  | cons f rest ih =>
    obtain ⟨n, v⟩ := f
    unfold Value.field at ih ⊢
    rw [List.map_cons, Record.get?_cons, Record.get?_cons]
    split
    · rfl
    · exact ih

theorem isNull_ofJson_toJson (h : raw.resolve = raw) (hnull : raw.isNull = false) :
    (Value.ofJson raw.toJson).isNull = false := by
  by_contra hcontra
  have hj := Value.eq_null_of_ofJson (by simpa using hcontra)
  -- Of the values that are not lazy, only null is written as null.
  cases raw with
  | null => cases hnull
  | int n =>
    rw [Value.toJson, Value.intToJson] at hj
    split at hj <;> cases hj
  | lazy w => exact Value.resolve_ne_lazy _ w h
  | _ => cases hj

/-- An object does not come from null. -/
theorem isNull_of_ofJson_toJson {record : Record Value}
    (h : Value.ofJson raw.toJson = .object record) : raw.isNull = false := by
  by_contra hcontra
  obtain rfl := Value.isNull_iff.1 (by simpa using hcontra)
  cases h

theorem respells_toJson (h : Shaped env (Stable env) c raw) :
    Respells env c (Value.ofJson raw.toJson) raw := by
  induction h with
  | int hP hlow hhigh =>
    have hbounds := IntType.bounds hlow hhigh
    rw [Value.toJson, Value.ofJson_intToJson (Value.fitsWord_iff.2 hbounds)]
    exact respells_self (.int hP hlow hhigh)
  | varint hP =>
    rw [Value.toJson, Value.ofJson_intToJson (Value.fitsWord_uint32 _)]
    exact respells_self (.varint hP)
  | time hP =>
    rw [Value.toJson, Value.ofJson_intToJson (Value.fitsWord_uint32 _)]
    exact respells_self (.time hP)
  | bytes _ hsize => exact respells_hexText hsize
  | bool hP => exact respells_self (.bool hP)
  | string hP => exact respells_self (.string hP)
  | void hP => exact respells_self (.void hP)
  | objectId hP hspace htype hinst => exact respells_self (.objectId hP hspace htype hinst)
  | anyObjectId hP hinst => exact respells_self (.anyObjectId hP hinst)
  | publicKey hP hcheck => exact respells_self (.publicKey hP hcheck)
  | address hP hbytes => exact respells_self (.address hP hbytes)
  | vector _ _ ih =>
    rw [Value.toJson, Value.ofJson, Value.toJsonItems_eq, Value.ofJsonItems_eq, List.map_map]
    refine .vector ?_
    rw [List.forall₂_map_left_iff, List.forall₂_same]
    exact ih
  | set hP _ ih =>
    rw [Value.toJson, Value.ofJson, Value.toJsonItems_eq, Value.ofJsonItems_eq, List.map_map]
    refine .set ?_ hP.1
    rw [List.forall₂_map_left_iff, List.forall₂_same]
    exact ih
  | @map c d items pairs hP hpairs _ _ ihkeys ihvalues =>
    subst hpairs
    -- An entry is written as an array of two, and read as an entry again.
    have hentries : Value.ofJson (Value.array (pairs.map Value.entry)).toJson =
        .array ((pairs.map fun p => (Value.ofJson p.1.toJson, Value.ofJson p.2.toJson)).map
          Value.entry) := by
      rw [Value.toJson, Value.ofJson, Value.toJsonItems_eq, Value.ofJsonItems_eq, List.map_map,
        List.map_map, List.map_map]
      rfl
    rw [hentries]
    refine .map ?_ hP.1
    rw [List.forall₂_map_left_iff, List.forall₂_same]
    exact fun p hp => ⟨ihkeys p hp, ihvalues p hp⟩
  | absent _ => exact .absent _
  | present _ hnull h ih =>
    exact .present ih (Value.resolve_ofJson _) (isNull_ofJson_toJson h.resolve_eq hnull)
  | pair _ _ _ iha ihb => exact .pair iha ihb
  | variant _ htag hcase _ ih =>
    subst htag
    rw [Value.ofJson_toJson_tagged]
    exact .variant hcase ih
  | @struct fields ignoreUnknown record _ hdistinct hkeys hfields ih =>
    -- Without the schema no field is left out.
    have hrecord : Value.ofJson (Value.object record).toJson =
        .object (record.map fun f => (f.1, Value.ofJson f.2.toJson)) := by
      rw [Value.toJson, Value.ofJson, Value.toJsonFields_eq, Value.ofJsonFields_eq, List.map_map]
      rfl
    have hfield (name : String) :
        Value.field (record.map fun f => (f.1, Value.ofJson f.2.toJson)) name =
          Value.ofJson (Value.field record name).toJson :=
      field_map (g := fun v => Value.ofJson v.toJson) rfl name
    rw [hrecord]
    refine .struct hdistinct hkeys (fun name hname => ?_) (fun f hf => ?_) fun f hf hnull => ?_
    · rw [← hkeys]
      simpa [Record.keys] using hname
    · rw [hfield]
      exact ih f hf
    · rw [hfield]
      exact isNull_ofJson_toJson (hfields f hf).resolve_eq hnull
  | operation hP htable htag hcase h ih =>
    subst htag
    -- What reads as an object was one, so its fee is settled.
    rw [Value.ofJson_toJson_tagged]
    refine .operation htable hcase (fun hzero raws hraws => ?_) (fun _ record hrecord => ?_)
      (Value.resolve_ofJson _) ih
    · exact hP.2 _ _ raws rfl hzero (hraws ▸ .operand htable rfl hcase)
    · exact isNull_of_ofJson_toJson hrecord

/-! ## With the schema -/

theorem not_isNull_of_render {P : Codec → Value → Prop} {j : Json} (h : Shaped env P c raw)
    (hnull : raw.isNull = false) (hj : render env c raw = .ok j) :
    (Value.ofJson j).isNull = false := by
  by_contra hcontra
  obtain rfl := Value.eq_null_of_ofJson (by simpa using hcontra)
  exact render_ne_null h hnull hj

theorem respells_items {items : List Value} {js : List Json}
    (ih : ∀ item ∈ items, ∀ {j}, render env c item = .ok j → Respells env c (.ofJson j) item)
    (hjs : List.Forall₂ (fun item j => render env c item = .ok j) items js) :
    List.Forall₂ (Respells env c) (Value.ofJsonItems js) items := by
  rw [Value.ofJsonItems_eq, List.forall₂_map_left_iff]
  refine (forall₂_imp_of_mem hjs ?_).flip
  exact fun item hitem j hj => ih item hitem hj

section Fields

variable {R : String × Codec → String × Json → Prop} {fields : List (String × Codec)}
  {record : Record Value} {js : List (String × Json)}

theorem keys_ofJsonFields (js : List (String × Json)) :
    Record.keys (Value.ofJsonFields js) = js.map Prod.fst := by
  rw [Value.ofJsonFields_eq, Record.keys, List.map_map]
  rfl

/-- Null fields are not rendered, so they are null when read back. -/
theorem field_ofJson_of_isNull
    (hjs : List.Forall₂ (fun f g => g.1 = f.1 ∧ R f g) (presentFields fields record) js)
    {f : String × Codec} (hnull : (Value.field record f.1).isNull = true) :
    Value.field (Value.ofJsonFields js) f.1 = .null := by
  refine Value.field_eq_null fun hmem => ?_
  rw [keys_ofJsonFields, names_of_presentFields hjs] at hmem
  obtain ⟨g, hg, hname⟩ := List.mem_map.1 hmem
  have hpresent := (List.mem_filter.1 hg).2
  rw [hname, hnull] at hpresent
  cases hpresent

/-- The other fields are read back under their names. -/
theorem exists_field_ofJson (hdistinct : (fields.map Prod.fst).Nodup)
    (hjs : List.Forall₂ (fun f g => g.1 = f.1 ∧ R f g) (presentFields fields record) js)
    {f : String × Codec} (hf : f ∈ fields) (hnull : (Value.field record f.1).isNull = false) :
    ∃ j, R f (f.1, j) ∧ Value.field (Value.ofJsonFields js) f.1 = .ofJson j := by
  have hpresent : f ∈ presentFields fields record := List.mem_filter.2 ⟨hf, by simp [hnull]⟩
  obtain ⟨⟨name, j⟩, hmem, hname, hR⟩ := forall₂_mem_left hjs hpresent
  -- No other field has its name, so this is the one that is found.
  obtain rfl : name = f.1 := hname
  refine ⟨j, hR, ?_⟩
  have hnodup : (Record.keys (Value.ofJsonFields js)).Nodup := by
    rw [keys_ofJsonFields]
    exact nodup_of_presentFields hdistinct hjs
  have hread : (f.1, Value.ofJson j) ∈ Value.ofJsonFields js := by
    rw [Value.ofJsonFields_eq]
    exact List.mem_map_of_mem (f := fun g => (g.1, Value.ofJson g.2)) hmem
  exact Value.field_of_mem hnodup hread

/-- A struct is read back from the fields that were rendered: one that was left
    out is null, and null respells itself. -/
theorem respells_render_struct {ignoreUnknown : Bool} {j : Json}
    (hdistinct : (fields.map Prod.fst).Nodup) (hkeys : Record.keys record = fields.map Prod.fst)
    (hself : ∀ f ∈ fields, Respells env f.2 (Value.field record f.1) (Value.field record f.1))
    (hfields : ∀ f ∈ fields, ∀ {j}, render env f.2 (Value.field record f.1) = .ok j →
      Respells env f.2 (.ofJson j) (Value.field record f.1))
    (hpresent : ∀ f ∈ fields, ∀ {j}, (Value.field record f.1).isNull = false →
      render env f.2 (Value.field record f.1) = .ok j → (Value.ofJson j).isNull = false)
    (hj : render env (.struct fields ignoreUnknown) (.object record) = .ok j) :
    Respells env (.struct fields ignoreUnknown) (.ofJson j) (.object record) := by
  obtain ⟨js, hjs, rfl⟩ := (render_struct_eq_ok hdistinct).1 hj
  refine .struct hdistinct hkeys (fun name hname => ?_) (fun f hf => ?_) fun f hf hnull => ?_
  · rw [keys_ofJsonFields, names_of_presentFields hjs] at hname
    exact (List.filter_sublist.map Prod.fst).subset hname
  · by_cases hnull : (Value.field record f.1).isNull = true
    · have hnulls := hself f hf
      rw [field_ofJson_of_isNull hjs hnull]
      rwa [Value.isNull_iff.1 hnull] at hnulls ⊢
    · obtain ⟨j, hj, hread⟩ := exists_field_ofJson hdistinct hjs hf (by simpa using hnull)
      rw [hread]
      exact hfields f hf hj
  · obtain ⟨j, hj, hread⟩ := exists_field_ofJson hdistinct hjs hf hnull
    rw [hread]
    exact hpresent f hf hnull hj

end Fields

theorem respells_render {j : Json}
    (h : Shaped env (fun d w => Stable env d w ∧ HasFields env d w) c raw)
    (hj : render env c raw = .ok j) : Respells env c (.ofJson j) raw := by
  have hstable : ∀ {d w}, Shaped env (fun d w => Stable env d w ∧ HasFields env d w) d w →
      Shaped env (Stable env) d w := fun h => h.imp fun _ _ hP => hP.1
  induction h generalizing j with
  | @int t n hP hlow hhigh =>
    rw [render_int hlow hhigh] at hj
    obtain rfl := Except.ok.inj hj
    -- Wide integers are rendered as texts, the others as numbers.
    by_cases htext : t.isText = true
    · rw [if_pos htext]
      exact respells_intText hlow hhigh
    · rw [if_neg htext]
      exact respells_self (.int hP.1 hlow hhigh)
  | varint hP =>
    rw [render_varint] at hj
    obtain rfl := Except.ok.inj hj
    exact respells_self (.varint hP.1)
  | bool hP =>
    obtain rfl := Except.ok.inj hj
    exact respells_self (.bool hP.1)
  | bytes _ hsize =>
    obtain rfl := Except.ok.inj hj
    exact respells_hexText hsize
  | string hP =>
    obtain rfl := Except.ok.inj hj
    exact respells_self (.string hP.1)
  | @time n _ =>
    obtain ⟨text, htext, hseconds⟩ := exists_render_time env n
    obtain rfl := Except.ok.inj (htext.symm.trans hj)
    refine of_not_object (Except.bind_eq_ok.2 ⟨_, hseconds, rfl⟩) ?_
    simp [Value.ofJson, Value.resolve]
  | void _ =>
    -- An empty object is normalized to null, whatever becomes of its fees.
    obtain rfl := Except.ok.inj hj
    refine ⟨rfl, fun record _ hnull => ?_⟩
    cases hnull
  | vector _ _ ih =>
    obtain ⟨js, hjs, rfl⟩ := render_vector_eq_ok.1 hj
    exact .vector (respells_items ih hjs)
  | set hP _ ih =>
    obtain ⟨js, hjs, rfl⟩ := render_set_eq_ok.1 hj
    exact .set (respells_items ih hjs) hP.1.1
  | @map c d _ pairs hP hpairs _ _ ihkeys ihvalues =>
    subst hpairs
    obtain ⟨qs, hqs, rfl⟩ := render_map_eq_ok.1 hj
    have hentries : Value.ofJson (.arr (qs.map fun q => .arr [q.1, q.2])) =
        .array ((qs.map fun q => (Value.ofJson q.1, Value.ofJson q.2)).map Value.entry) := by
      rw [Value.ofJson, Value.ofJsonItems_eq, List.map_map, List.map_map]
      rfl
    rw [hentries]
    refine .map ?_ hP.1.1
    rw [List.forall₂_map_left_iff]
    refine (forall₂_imp_of_mem hqs ?_).flip
    exact fun p hp q hq => ⟨ihkeys p hp hq.1, ihvalues p hp hq.2⟩
  | absent _ =>
    obtain rfl := Except.ok.inj hj
    exact .absent _
  | present _ hnull h ih =>
    rw [render_optional hnull] at hj
    exact .present (ih hj) (Value.resolve_ofJson _) (not_isNull_of_render h hnull hj)
  | pair _ _ _ iha ihb =>
    obtain ⟨ja, jb, hja, hjb, rfl⟩ := render_pair_eq_ok.1 hj
    exact .pair (iha hja) (ihb hjb)
  | variant _ htag hcase _ ih =>
    subst htag
    obtain ⟨jp, hjp, rfl⟩ := (render_variant_eq_ok hcase).1 hj
    exact .variant hcase (ih hjp)
  | struct _ hdistinct hkeys hfields ih =>
    exact respells_render_struct hdistinct hkeys
      (fun f hf => respells_self (hstable (hfields f hf))) ih
      (fun f hf => not_isNull_of_render (hfields f hf)) hj
  | objectId hP hspace htype hinst =>
    rw [render_objectId hspace htype hinst] at hj
    obtain rfl := Except.ok.inj hj
    exact respells_self (.objectId hP.1 hspace htype hinst)
  | anyObjectId hP hinst =>
    rw [render_anyObjectId] at hj
    obtain rfl := Except.ok.inj hj
    exact respells_self (.anyObjectId hP.1 hinst)
  | publicKey hP hcheck =>
    obtain rfl := Except.ok.inj hj
    exact respells_self (.publicKey hP.1 hcheck)
  | address hP hbytes =>
    rw [render_address hbytes] at hj
    obtain rfl := Except.ok.inj hj
    exact respells_self (.address hP.1 hbytes)
  | @operation link table _ tag c payload hP htable htag hcase h ih =>
    subst htag
    obtain ⟨jp, hjp, rfl⟩ := (render_operation_eq_ok htable hcase).1 hj
    have hchild : Child env (.operation link) (.array [.int tag.toNat, payload]) 1 c payload :=
      .operand htable rfl hcase
    refine .operation htable hcase (fun hzero raws hraws => ?_) (fun hzero record hrecord => ?_)
      (Value.resolve_ofJson _) (ih hjp)
    · exact hP.1.2 _ _ raws rfl hzero (hraws ▸ hchild)
    · by_contra hcontra
      obtain rfl := Value.isNull_iff.1 (by simpa using hcontra)
      rw [render_null h (hP.2 _ _ _ rfl hzero hchild)] at hjp
      obtain rfl := Except.ok.inj hjp
      cases hrecord

/-- What is rendered is normalized to the canonical value again if its fees are
    settled and no operation that fees are filled into is void. -/
theorem normalize_render {j : Json} (h : Shaped env (Ordered env) c raw)
    (hparts : ∀ n d w, Part env c raw n d w → Settled env d w ∧ HasFields env d w)
    (hj : render env c raw = .ok j) : normalize env c (.ofJson j) = .ok raw := by
  have hshape : Shaped env (fun d w => Stable env d w ∧ HasFields env d w) c raw :=
    h.of_parts fun n d w hw =>
      ⟨⟨(h.part hw).holds, (hparts n d w hw).1⟩, (hparts n d w hw).2⟩
  exact (respells_render hshape hj).normal

theorem normalize_render_of_feesKept {j : Json} (hfees : FeesKept env c)
    (h : Shaped env (Ordered env) c raw) (hj : render env c raw = .ok j) :
    normalize env c (.ofJson j) = .ok raw :=
  normalize_render h
    (fun _ _ _ hw => ⟨settled_of_feesKept h hfees hw, hasFields_of_feesKept hfees hw⟩) hj

end Codec

end ChainCodec
