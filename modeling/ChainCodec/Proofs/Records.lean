import ChainCodec.Proofs.Sequence
import Mathlib.Data.List.Induction

/-! # Records with distinct names

    A record whose names are distinct is the list of its fields: writing them
    one after the other replaces nothing, and looking up a name finds the
    field of that name. -/

namespace ChainCodec.Record

variable {α : Type}

theorem ofList_append_singleton (fields : List (String × α)) (f : String × α) :
    ofList (fields ++ [f]) = insert f.1 f.2 (ofList fields) := by
  simp [ofList]

/-- Nothing is replaced where no name is repeated. -/
theorem ofList_of_nodup {fields : List (String × α)} (h : (fields.map Prod.fst).Nodup) :
    ofList fields = fields := by
  -- Records are built from the front, so the last field is inserted last.
  induction fields using List.reverseRecOn with
  | nil => rfl
  | append_singleton fields f ih =>
    rw [List.map_append, List.map_singleton, List.nodup_append] at h
    obtain ⟨hfields, _, hf⟩ := h
    have hmem : f.1 ∉ keys fields := fun hmem => hf _ hmem f.1 (by simp) rfl
    rw [ofList_append_singleton, ih hfields, insert_of_not_mem f.2 hmem]

theorem get?_of_mem {fields : List (String × α)} (h : (fields.map Prod.fst).Nodup)
    {f : String × α} (hf : f ∈ fields) : get? f.1 fields = some f.2 := by
  induction fields with
  | nil => cases hf
  | cons g fields ih =>
    rw [List.map_cons, List.nodup_cons] at h
    obtain ⟨n, v⟩ := g
    rw [get?_cons]
    rcases List.mem_cons.1 hf with rfl | hf
    · rw [if_pos rfl]
    · -- An earlier field of the name would be found in its place.
      have hne : ¬ n = f.1 := by
        intro e
        exact h.1 (List.mem_map.2 ⟨f, hf, e.symm⟩)
      rw [if_neg hne, ih h.2 hf]

theorem get?_eq_none {fields : Record α} {name : String} (h : name ∉ keys fields) :
    get? name fields = none := by
  induction fields with
  | nil => rfl
  | cons g fields ih =>
    obtain ⟨n, v⟩ := g
    simp only [keys, List.map_cons, List.mem_cons, not_or] at h
    rw [get?_cons, if_neg fun e => h.1 e.symm, ih h.2]

theorem get?_insert_of_ne {fields : Record α} {name other : String} (v : α) (h : name ≠ other) :
    get? other (insert name v fields) = get? other fields := by
  induction fields with
  | nil => rw [insert, get?_cons, if_neg h]
  | cons g fields ih =>
    obtain ⟨n, w⟩ := g
    by_cases hn : n = name
    · rw [insert, if_pos hn, get?_cons, get?_cons, if_neg h, if_neg (hn ▸ h)]
    · rw [insert, if_neg hn, get?_cons, get?_cons, ih]

theorem mem_insert {fields : Record α} {name : String} {v : α} {f : String × α}
    (h : f ∈ insert name v fields) : f ∈ fields ∨ f = (name, v) := by
  induction fields with
  | nil => exact .inr (List.mem_singleton.1 h)
  | cons g fields ih =>
    by_cases hg : g.1 = name
    · rw [insert, if_pos hg] at h
      rcases List.mem_cons.1 h with rfl | h
      · exact .inr rfl
      · exact .inl (List.mem_cons_of_mem g h)
    · rw [insert, if_neg hg] at h
      rcases List.mem_cons.1 h with rfl | h
      · exact .inl List.mem_cons_self
      · exact (ih h).imp (List.mem_cons_of_mem g) id

theorem mem_ofList {fields : List (String × α)} {f : String × α} (h : f ∈ ofList fields) :
    f ∈ fields := by
  induction fields using List.reverseRecOn with
  | nil => exact h
  | append_singleton fields g ih =>
    rw [ofList_append_singleton] at h
    apply List.mem_append.2
    rcases mem_insert h with h | rfl
    · exact .inl (ih h)
    · exact .inr List.mem_cons_self

/-! ## Order -/

theorem keys_perm {fields fields' : Record α} (h : fields.Perm fields') :
    (keys fields).Perm (keys fields') := h.map Prod.fst

theorem keys_insert_of_mem {fields : Record α} {name : String} (v : α)
    (h : name ∈ keys fields) : keys (insert name v fields) = keys fields := by
  induction fields with
  | nil => cases h
  | cons g fields ih =>
    by_cases hg : g.1 = name
    · rw [insert, if_pos hg, keys, keys, List.map_cons, List.map_cons, hg]
    · have hrest := ih ((List.mem_cons.1 h).resolve_left fun e => hg e.symm)
      simp only [keys] at hrest
      rw [insert, if_neg hg, keys, keys, List.map_cons, List.map_cons, hrest]

theorem nodup_insert {fields : Record α} (name : String) (v : α) (h : (keys fields).Nodup) :
    (keys (insert name v fields)).Nodup := by
  by_cases hname : name ∈ keys fields
  · rwa [keys_insert_of_mem v hname]
  · rw [insert_of_not_mem v hname, keys, List.map_append, List.map_singleton, List.nodup_append]
    refine ⟨h, List.nodup_cons.2 ⟨by simp, List.nodup_nil⟩, fun n hn m hm e => ?_⟩
    rw [e, List.mem_singleton.1 hm] at hn
    exact hname hn

/-- A field that is written into a record has its place in any order. -/
theorem insert_perm {fields fields' : Record α} (name : String) (v : α)
    (hdistinct : (keys fields).Nodup) (h : fields.Perm fields') :
    (insert name v fields).Perm (insert name v fields') := by
  induction h with
  | nil => exact .refl _
  | cons f hperm ih =>
    by_cases hf : f.1 = name
    · rw [insert, insert, if_pos hf, if_pos hf]
      exact hperm.cons _
    · rw [insert, insert, if_neg hf, if_neg hf]
      exact (ih (List.nodup_cons.1 hdistinct).2).cons f
  | swap f g fields =>
    -- At most one of the two is replaced, since their names differ.
    have hne : g.1 ≠ f.1 := fun e => (List.nodup_cons.1 hdistinct).1 (e ▸ List.mem_cons_self)
    by_cases hg : g.1 = name
    · have hf : f.1 ≠ name := fun e => hne (hg.trans e.symm)
      simp only [insert, hg, hf, if_true, if_false]
      exact .swap _ _ _
    · by_cases hf : f.1 = name
      · simp only [insert, hg, hf, if_true, if_false]
        exact .swap _ _ _
      · simp only [insert, hg, hf, if_false]
        exact .swap _ _ _
  | trans hperm _ ih ih' =>
    exact (ih hdistinct).trans (ih' ((keys_perm hperm).nodup_iff.1 hdistinct))

/-! ## Other values under the same names -/

section MapValues

variable {β : Type}

def mapValues (g : α → β) (fields : Record α) : Record β := fields.map fun f => (f.1, g f.2)

theorem keys_mapValues (g : α → β) (fields : Record α) :
    keys (mapValues g fields) = keys fields := by
  simp [keys, mapValues]

theorem get?_mapValues (g : α → β) (fields : Record α) (name : String) :
    get? name (mapValues g fields) = (get? name fields).map g := by
  induction fields with
  | nil => rfl
  | cons f fields ih =>
    rw [mapValues, List.map_cons, get?_cons, get?_cons]
    split
    · rfl
    · exact ih

theorem insert_mapValues (g : α → β) (fields : Record α) (name : String) (v : α) :
    insert name (g v) (mapValues g fields) = mapValues g (insert name v fields) := by
  induction fields with
  | nil => rfl
  | cons f fields ih =>
    simp only [mapValues, List.map_cons, insert] at ih ⊢
    split
    · rfl
    · rw [ih, List.map_cons]

end MapValues

end ChainCodec.Record

namespace ChainCodec.Value

theorem field_of_mem {record : Record Value} (h : (Record.keys record).Nodup)
    {f : String × Value} (hf : f ∈ record) : field record f.1 = f.2 := by
  rw [field, Record.get?_of_mem h hf, Option.getD_some]

theorem field_eq_null {record : Record Value} {name : String} (h : name ∉ Record.keys record) :
    field record name = .null := by
  rw [field, Record.get?_eq_none h, Option.getD_none]

/-- The order of fields does not matter. -/
theorem field_eq_of_perm {record record' : Record Value} (hdistinct : (Record.keys record).Nodup)
    (h : record.Perm record') (name : String) : field record name = field record' name := by
  have hkeys := Record.keys_perm h
  by_cases hname : name ∈ Record.keys record
  · obtain ⟨f, hf, rfl⟩ := List.mem_map.1 hname
    rw [field_of_mem hdistinct hf, field_of_mem (hkeys.nodup_iff.1 hdistinct) (h.mem_iff.1 hf)]
  · rw [field_eq_null hname, field_eq_null fun hmem => hname (hkeys.mem_iff.2 hmem)]

theorem field_insert_of_ne {record : Record Value} {name other : String} (v : Value)
    (h : name ≠ other) : field (Record.insert name v record) other = field record other := by
  rw [field, Record.get?_insert_of_ne v h, field]

/-- The fields that a schema gives one by one. -/
def FieldsOf {α : Type} (R : String × α → Value → Prop) (schema : List (String × α))
    (record : Record Value) : Prop :=
  List.Forall₂ (fun f raw => raw.1 = f.1 ∧ R f raw.2) schema record

section FieldsOf

variable {α : Type} {R : String × α → Value → Prop} {schema : List (String × α)}
  {record : Record Value}

theorem FieldsOf.keys_eq (h : FieldsOf R schema record) :
    Record.keys record = schema.map Prod.fst := by
  induction h with
  | nil => rfl
  | cons hf _ ih =>
    simp only [Record.keys, List.map_cons] at ih ⊢
    rw [hf.1, ih]

theorem FieldsOf.field (h : FieldsOf R schema record) (hdistinct : (schema.map Prod.fst).Nodup)
    {f : String × α} (hf : f ∈ schema) : R f (Value.field record f.1) := by
  obtain ⟨raw, hraw, hname, hR⟩ := forall₂_mem_left h hf
  rw [← hname, field_of_mem (h.keys_eq ▸ hdistinct) hraw]
  exact hR

theorem fieldsOf_congr {S : String × α → Value → Prop}
    (h : ∀ f ∈ schema, ∀ raw, R f raw ↔ S f raw) :
    FieldsOf R schema record ↔ FieldsOf S schema record := by
  constructor
  · intro hR
    exact forall₂_imp_of_mem hR fun f hf raw hraw => ⟨hraw.1, (h f hf _).1 hraw.2⟩
  · intro hS
    exact forall₂_imp_of_mem hS fun f hf raw hraw => ⟨hraw.1, (h f hf _).2 hraw.2⟩

theorem fieldsOf_of_values (hkeys : Record.keys record = schema.map Prod.fst)
    (h : ∀ f ∈ schema, ∀ raw ∈ record, raw.1 = f.1 → R f raw.2) : FieldsOf R schema record := by
  induction schema generalizing record with
  | nil =>
    cases record with
    | nil => exact .nil
    | cons raw record => cases hkeys
  | cons f schema ih =>
    cases record with
    | nil => cases hkeys
    | cons raw record =>
      simp only [Record.keys, List.map_cons, List.cons.injEq] at hkeys
      refine .cons ⟨hkeys.1, h f (by simp) raw (by simp) hkeys.1⟩ (ih hkeys.2 ?_)
      exact fun g hg r hr => h g (by simp [hg]) r (by simp [hr])

/-- A record with the names of the schema is given by its fields. -/
theorem fieldsOf_of_keys (hkeys : Record.keys record = schema.map Prod.fst)
    (hdistinct : (schema.map Prod.fst).Nodup)
    (hfields : ∀ f ∈ schema, R f (Value.field record f.1)) : FieldsOf R schema record := by
  refine fieldsOf_of_values hkeys fun f hf raw hraw hname => ?_
  have hR := hfields f hf
  rwa [← hname, field_of_mem (hkeys ▸ hdistinct) hraw] at hR

/-- A record with the names of the schema is the list of its fields. -/
theorem eq_fields_of_keys (hkeys : Record.keys record = schema.map Prod.fst)
    (hdistinct : (schema.map Prod.fst).Nodup) :
    record = schema.map fun f => (f.1, Value.field record f.1) := by
  have hself : record.map (fun raw => (raw.1, Value.field record raw.1)) = record := by
    refine (List.map_congr_left fun raw hraw => ?_).trans (List.map_id record)
    exact Prod.ext rfl (field_of_mem (hkeys ▸ hdistinct) hraw)
  have hnames := congrArg (List.map fun name => (name, Value.field record name)) hkeys
  rw [Record.keys, List.map_map, List.map_map] at hnames
  exact hself.symm.trans hnames

end FieldsOf

end ChainCodec.Value
