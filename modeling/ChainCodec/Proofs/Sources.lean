import ChainCodec.Proofs.Canonical

/-! # Where the parts of canonical values come from

    Normalization goes into parts of its input, which may be lazy, unordered
    or filled in: its sources.  Every part of the canonical value is the
    canonical value of a source: `exists_source`. -/

namespace ChainCodec.Codec

variable {env : Registries} {c d : Codec} {u v w raw : Value}

/-! ## Steps of normalization -/

theorem normalizeCase_eq_ok {bytesOf : EncodeElement} {op : NormalizeOperation}
    {label : String} {tag : UInt32} {cases : CaseTable} {payload : Value} :
    normalizeCase bytesOf op label tag cases payload = .ok raw ↔
      ∃ c, cases.lookup tag = some c ∧ normalizeWith bytesOf op c payload = .ok raw := by
  induction cases with
  | nil => simp [normalizeCase]
  | cons case rest ih =>
    obtain ⟨t, d⟩ := case
    simp only [normalizeCase]
    by_cases ht : t = tag
    · rw [ht, if_pos rfl, Check.within_eq_ok, List.lookup_cons_self]
      simp
    · rw [if_neg ht, lookup_cons_ne ht]
      exact ih

theorem normalizeFields_eq_ok {bytesOf : EncodeElement} {op : NormalizeOperation}
    {fields : List (String × Codec)} {record : Record Value} {raws : List (String × Value)} :
    normalizeFields bytesOf op fields record = .ok raws ↔
      Value.FieldsOf (fun f raw =>
        normalizeWith bytesOf op f.2 (Value.field record f.1) = .ok raw) fields raws := by
  induction fields generalizing raws with
  | nil =>
    simp only [normalizeFields, Except.ok.injEq, Value.FieldsOf, List.forall₂_nil_left_iff]
    exact eq_comm
  | cons f rest ih =>
    obtain ⟨name, c⟩ := f
    simp only [normalizeFields, Except.bind_eq_ok, Except.pure_eq_ok, Check.within_eq_ok, ih,
      Value.FieldsOf, List.forall₂_cons_left_iff]
    constructor
    · intro h
      rcases h with ⟨raw, hraw, raws', hraws', rfl⟩
      exact ⟨(name, raw), raws', ⟨rfl, hraw⟩, hraws', rfl⟩
    · intro h
      rcases h with ⟨⟨name', raw⟩, raws', ⟨rfl, hraw⟩, hraws', rfl⟩
      exact ⟨raw, hraw, raws', hraws', rfl⟩

/-- Payloads that the case for the tag does not tell apart. -/
theorem normalizeCase_eq_of_lookup {bytesOf : EncodeElement} {op : NormalizeOperation}
    {label : String} {tag : UInt32} {cases : CaseTable} {payload payload' : Value}
    (h : ∀ c, cases.lookup tag = some c →
      normalizeWith bytesOf op c payload = normalizeWith bytesOf op c payload') :
    normalizeCase bytesOf op label tag cases payload =
      normalizeCase bytesOf op label tag cases payload' := by
  induction cases with
  | nil => simp only [normalizeCase]
  | cons case rest ih =>
    obtain ⟨t, c⟩ := case
    simp only [normalizeCase]
    by_cases ht : t = tag
    · rw [if_pos ht, if_pos ht, h c (by rw [ht, List.lookup_cons_self])]
    · rw [if_neg ht, if_neg ht]
      exact ih fun c hc => h c (by rw [lookup_cons_ne ht, hc])

/-- Fields of the same names that are normalized alike, one by one. -/
theorem normalizeFields_congr_field {bytesOf : EncodeElement} {op : NormalizeOperation}
    {fields fields' : List (String × Codec)} {record record' : Record Value}
    (h : List.Forall₂ (fun f f' => f.1 = f'.1 ∧
      normalizeWith bytesOf op f.2 (Value.field record f.1) =
        normalizeWith bytesOf op f'.2 (Value.field record' f'.1)) fields fields') :
    normalizeFields bytesOf op fields record = normalizeFields bytesOf op fields' record' := by
  induction h with
  | nil => simp only [normalizeFields]
  | cons hf _ ih =>
    simp only [normalizeFields]
    rw [hf.2, hf.1, ih]

/-- Fields are normalized from what the record has under their names. -/
theorem normalizeFields_eq_of_fields {bytesOf : EncodeElement} {op : NormalizeOperation}
    {fields : List (String × Codec)} {record record' : Record Value}
    (h : ∀ f ∈ fields, Value.field record f.1 = Value.field record' f.1) :
    normalizeFields bytesOf op fields record = normalizeFields bytesOf op fields record' := by
  apply normalizeFields_congr_field
  apply List.forall₂_same.2
  intro f hf
  exact ⟨rfl, by rw [h f hf]⟩

theorem entries_array_eq_ok {textKeys : Bool} {items : List Value}
    {pairs : List (Value × Value)} :
    Check.entries textKeys (.array items) = .ok pairs ↔
      List.Forall₂ (fun item p => item.resolve.asPair? = some p) items pairs := by
  refine traverseFrom_eq_ok fun i item p => ?_
  cases item.resolve.asPair? <;> simp

theorem entries_array (textKeys : Bool) (pairs : List (Value × Value)) :
    Check.entries textKeys (.array (pairs.map Value.entry)) = .ok pairs := by
  rw [entries_array_eq_ok, List.forall₂_map_left_iff, List.forall₂_same]
  exact fun _ _ => rfl

theorem normalize_vector_eq_ok :
    normalize env (.vector c) v = .ok raw ↔
      ∃ items raws, v.resolve = .array items ∧
        List.Forall₂ (fun item raw => normalize env c item = .ok raw) items raws ∧
          raw = .array raws := by
  have hstep : ∀ (i : Nat) (item raw : Value),
      Check.within (.element i) (normalize env c item) = .ok raw ↔ normalize env c item = .ok raw :=
    fun _ _ _ => Check.within_eq_ok
  simp only [normalize, normalizeWith, Except.bind_eq_ok, Except.pure_eq_ok, Check.array_eq_ok]
  constructor
  · intro h
    rcases h with ⟨items, hv, raws, hraws, rfl⟩
    exact ⟨items, raws, hv, (traverseFrom_eq_ok hstep).1 hraws, rfl⟩
  · intro h
    rcases h with ⟨items, raws, hv, hraws, rfl⟩
    exact ⟨items, hv, raws, (traverseFrom_eq_ok hstep).2 hraws, rfl⟩

/-- The canonical value of an element, with its bytes.  The path of an error is
    all that the number of the element is for. -/
def normalizeElement (env : Registries) (c : Codec) (i : Nat) (item : Value) :
    Except Error Order.Entry := do
  let raw ← Check.within (.element i) (normalize env c item)
  let bs ← Check.within (.element i) (encode env c raw)
  pure (bs, raw)

/-- The canonical value of an entry, with the bytes of its key. -/
def normalizeEntry (env : Registries) (c d : Codec) (i : Nat) (p : Value × Value) :
    Except Error Order.Entry := do
  let key ← Check.within (.key i) (normalize env c p.1)
  let value ← Check.within (.value i) (normalize env d p.2)
  let bs ← Check.within (.key i) (encode env c key)
  pure (bs, Value.entry (key, value))

theorem normalizeElement_eq_ok (i : Nat) (item : Value) (e : Order.Entry) :
    normalizeElement env c i item = .ok e ↔
      normalize env c item = .ok e.2 ∧ encode env c e.2 = .ok e.1 := by
  simp only [normalizeElement, Except.bind_eq_ok, Except.pure_eq_ok, Check.within_eq_ok]
  constructor
  · intro h
    rcases h with ⟨raw, hraw, bs, hbs, rfl⟩
    exact ⟨hraw, hbs⟩
  · intro h
    exact ⟨e.2, h.1, e.1, h.2, rfl⟩

theorem normalizeEntry_eq_ok (i : Nat) (p : Value × Value) (e : Order.Entry) :
    normalizeEntry env c d i p = .ok e ↔
      ∃ q, normalize env c p.1 = .ok q.1 ∧ normalize env d p.2 = .ok q.2 ∧
        encode env c q.1 = .ok e.1 ∧ e.2 = Value.entry q := by
  simp only [normalizeEntry, Except.bind_eq_ok, Except.pure_eq_ok, Check.within_eq_ok]
  constructor
  · intro h
    rcases h with ⟨key, hkey, value, hvalue, bs, hbs, rfl⟩
    exact ⟨(key, value), hkey, hvalue, hbs, rfl⟩
  · intro h
    rcases h with ⟨⟨key, value⟩, hkey, hvalue, hbs, he⟩
    exact ⟨key, hkey, value, hvalue, e.1, hbs, Prod.ext rfl he.symm⟩

theorem normalizeElements_eq_ok {items : List Value} {entries : List Order.Entry} :
    traverseFrom (normalizeElement env c) 0 items = .ok entries ↔
      List.Forall₂ (fun item (e : Order.Entry) =>
        normalize env c item = .ok e.2 ∧ encode env c e.2 = .ok e.1) items entries :=
  traverseFrom_eq_ok normalizeElement_eq_ok

theorem normalizeEntries_eq_ok {pairs : List (Value × Value)} {entries : List Order.Entry} :
    traverseFrom (normalizeEntry env c d) 0 pairs = .ok entries ↔
      List.Forall₂ (fun p (e : Order.Entry) => ∃ q, normalize env c p.1 = .ok q.1 ∧
        normalize env d p.2 = .ok q.2 ∧ encode env c q.1 = .ok e.1 ∧ e.2 = Value.entry q)
        pairs entries :=
  traverseFrom_eq_ok normalizeEntry_eq_ok

theorem normalize_set :
    normalize env (.set c) v = (do
      let items ← Check.elements v.resolve
      let entries ← traverseFrom (normalizeElement env c) 0 items
      let sorted ← (Order.sortUnique entries).mapError fun bs => .validation (.duplicateElement bs)
      pure (.array sorted)) := by
  simp only [normalize, normalizeWith]
  rfl

theorem normalize_map :
    normalize env (.map c d) v = (do
      let pairs ← Check.entries c.hasTextForm v.resolve
      let entries ← traverseFrom (normalizeEntry env c d) 0 pairs
      let sorted ← (Order.sortUnique entries).mapError fun bs => .validation (.duplicateKey bs)
      pure (.array sorted)) := by
  simp only [normalize, normalizeWith]
  rfl

/-- The canonical elements are sorted by their encodings. -/
theorem normalize_set_eq_ok :
    normalize env (.set c) v = .ok raw ↔
      ∃ items entries sorted, Check.elements v.resolve = .ok items ∧
        List.Forall₂ (fun item (e : Order.Entry) =>
          normalize env c item = .ok e.2 ∧ encode env c e.2 = .ok e.1) items entries ∧
        Order.sortUnique entries = .ok sorted ∧ raw = .array sorted := by
  simp only [normalize_set, Except.bind_eq_ok, Except.pure_eq_ok, Except.mapError_eq_ok,
    normalizeElements_eq_ok]
  constructor
  · intro h
    rcases h with ⟨items, hitems, entries, hentries, sorted, hsorted, rfl⟩
    exact ⟨items, entries, sorted, hitems, hentries, hsorted, rfl⟩
  · intro h
    rcases h with ⟨items, entries, sorted, hitems, hentries, hsorted, rfl⟩
    exact ⟨items, hitems, entries, hentries, sorted, hsorted, rfl⟩

/-- The canonical entries are sorted by the encodings of their keys. -/
theorem normalize_map_eq_ok :
    normalize env (.map c d) v = .ok raw ↔
      ∃ pairs entries sorted, Check.entries c.hasTextForm v.resolve = .ok pairs ∧
        List.Forall₂ (fun p (e : Order.Entry) => ∃ q, normalize env c p.1 = .ok q.1 ∧
          normalize env d p.2 = .ok q.2 ∧ encode env c q.1 = .ok e.1 ∧ e.2 = Value.entry q)
          pairs entries ∧
        Order.sortUnique entries = .ok sorted ∧ raw = .array sorted := by
  simp only [normalize_map, Except.bind_eq_ok, Except.pure_eq_ok, Except.mapError_eq_ok,
    normalizeEntries_eq_ok]
  constructor
  · intro h
    rcases h with ⟨pairs, hpairs, entries, hentries, sorted, hsorted, rfl⟩
    exact ⟨pairs, entries, sorted, hpairs, hentries, hsorted, rfl⟩
  · intro h
    rcases h with ⟨pairs, entries, sorted, hpairs, hentries, hsorted, rfl⟩
    exact ⟨pairs, hpairs, entries, hentries, sorted, hsorted, rfl⟩

theorem normalize_pair_eq_ok :
    normalize env (.pair c d) v = .ok raw ↔
      ∃ a b a' b', v.resolve.asPair? = some (a, b) ∧ normalize env c a = .ok a' ∧
        normalize env d b = .ok b' ∧ raw = .array [a', b'] := by
  simp only [normalize, normalizeWith, Except.bind_eq_ok, Except.pure_eq_ok,
    Check.within_eq_ok, Check.pair_eq_ok]
  constructor
  · intro h
    rcases h with ⟨⟨a, b⟩, hv, a', ha, b', hb, rfl⟩
    exact ⟨a, b, a', b', hv, ha, hb, rfl⟩
  · intro h
    rcases h with ⟨a, b, a', b', hv, ha, hb, rfl⟩
    exact ⟨(a, b), hv, a', ha, b', hb, rfl⟩

theorem normalize_optional :
    normalize env (.optional c) v =
      if v.resolve.isNull then .ok .null else normalize env c v.resolve := by
  simp only [normalize, normalizeWith]

theorem normalize_variant_eq_ok {label : String} {cases : CaseTable} :
    normalize env (.variant label cases) v = .ok raw ↔
      ∃ t payload tag c raw', v.resolve.asPair? = some (t, payload) ∧
        Check.tag t.resolve = .ok tag ∧ cases.lookup tag = some c ∧
          normalize env c payload = .ok raw' ∧ raw = .array [.int tag.toNat, raw'] := by
  simp only [normalize, normalizeWith, Except.bind_eq_ok, Except.pure_eq_ok,
    Check.tagged_eq_ok, normalizeCase_eq_ok]
  constructor
  · intro h
    rcases h with ⟨⟨t, payload⟩, hp, tag, htag, raw', ⟨c, hcase, hraw'⟩, rfl⟩
    exact ⟨t, payload, tag, c, raw', hp, htag, hcase, hraw', rfl⟩
  · intro h
    rcases h with ⟨t, payload, tag, c, raw', hp, htag, hcase, hraw', rfl⟩
    exact ⟨(t, payload), hp, tag, htag, raw', ⟨c, hcase, hraw'⟩, rfl⟩

theorem normalize_operation_eq_ok {link : OperationLink} :
    normalize env (.operation link) v = .ok raw ↔
      ∃ table, (env link.registry).table = .ok table ∧
        normalize env (.variant operationLabel table) (operationInput link v) = .ok raw := by
  rw [normalize_operation]
  simp only [Except.bind_eq_ok, Registries.unionOf_eq_ok]
  constructor
  · intro h
    rcases h with ⟨_, ⟨table, htable, rfl⟩, h⟩
    exact ⟨table, htable, h⟩
  · intro h
    rcases h with ⟨table, htable, h⟩
    exact ⟨_, ⟨table, htable, rfl⟩, h⟩

theorem normalize_struct_eq_ok {fields : List (String × Codec)} {ignoreUnknown : Bool}
    (hdistinct : (fields.map Prod.fst).Nodup) :
    normalize env (.struct fields ignoreUnknown) v = .ok raw ↔
      ∃ record raws, v.resolve = .object record ∧
        Check.keys ignoreUnknown (fields.map Prod.fst) record = .ok () ∧
          Value.FieldsOf (fun f raw => normalize env f.2 (Value.field record f.1) = .ok raw)
            fields raws ∧ raw = .object raws := by
  simp only [normalize, normalizeWith, Except.bind_eq_ok, Except.pure_eq_ok, Check.object_eq_ok,
    normalizeFields_eq_ok]
  constructor
  · intro h
    rcases h with ⟨record, hv, _, hkeys, raws, hraws, rfl⟩
    refine ⟨record, raws, hv, hkeys, hraws, ?_⟩
    -- No name comes twice, so collecting the fields loses none of them.
    have hnames : raws.map Prod.fst = fields.map Prod.fst := hraws.keys_eq
    rw [Record.ofList_of_nodup (hnames ▸ hdistinct)]
  · intro h
    rcases h with ⟨record, raws, hv, hkeys, hraws, rfl⟩
    refine ⟨record, hv, (), hkeys, raws, hraws, ?_⟩
    have hnames : raws.map Prod.fst = fields.map Prod.fst := hraws.keys_eq
    rw [Record.ofList_of_nodup (hnames ▸ hdistinct)]

/-! ## Sources -/

/-- One step from an input to a part of it that normalization goes into. -/
inductive Source (env : Registries) : Codec → Value → Codec → Value → Prop
  | item {c : Codec} {v item : Value} {items : List Value} (hv : v.resolve = .array items)
      (h : item ∈ items) : Source env (.vector c) v c item
  | element {c : Codec} {v item : Value} {items : List Value}
      (hv : Check.elements v.resolve = .ok items) (h : item ∈ items) :
      Source env (.set c) v c item
  | key {c d : Codec} {v : Value} {pairs : List (Value × Value)} {p : Value × Value}
      (hv : Check.entries c.hasTextForm v.resolve = .ok pairs) (h : p ∈ pairs) :
      Source env (.map c d) v c p.1
  | value {c d : Codec} {v : Value} {pairs : List (Value × Value)} {p : Value × Value}
      (hv : Check.entries c.hasTextForm v.resolve = .ok pairs) (h : p ∈ pairs) :
      Source env (.map c d) v d p.2
  | present {c : Codec} {v : Value} (hv : v.resolve.isNull = false) :
      Source env (.optional c) v c v.resolve
  | first {c d : Codec} {v a b : Value} (hv : v.resolve.asPair? = some (a, b)) :
      Source env (.pair c d) v c a
  | second {c d : Codec} {v a b : Value} (hv : v.resolve.asPair? = some (a, b)) :
      Source env (.pair c d) v d b
  | payload {label : String} {cases : CaseTable} {tag : UInt32} {c : Codec} {v t payload : Value}
      (hv : v.resolve.asPair? = some (t, payload)) (htag : Check.tag t.resolve = .ok tag)
      (hcase : cases.lookup tag = some c) :
      Source env (.variant label cases) v c payload
  | field {fields : List (String × Codec)} {ignoreUnknown : Bool} {record : Record Value}
      {f : String × Codec} {v : Value} (hv : v.resolve = .object record) (hf : f ∈ fields) :
      Source env (.struct fields ignoreUnknown) v f.2 (Value.field record f.1)
  | operand {link : OperationLink} {table : CaseTable} {tag : UInt32} {c : Codec}
      {v t payload : Value} (hv : (operationInput link v).resolve.asPair? = some (t, payload))
      (htable : (env link.registry).table = .ok table) (htag : Check.tag t.resolve = .ok tag)
      (hcase : table.lookup tag = some c) :
      Source env (.operation link) v c payload

/-- Every part of a canonical value is the canonical value of a source. -/
theorem exists_source (hnames : DistinctNames env c) (h : normalize env c v = .ok raw) {k : Nat}
    (hw : Child env c raw k d w) : ∃ u, Source env c v d u ∧ normalize env d u = .ok w := by
  cases hw with
  | item hmem =>
    obtain ⟨items, raws, hv, hraws, he⟩ := normalize_vector_eq_ok.1 h
    cases he
    obtain ⟨item, hitem, hnormal⟩ := forall₂_mem_right hraws hmem
    exact ⟨item, .item hv hitem, hnormal⟩
  | element hmem =>
    obtain ⟨items, entries, sorted, hitems, hentries, hsorted, he⟩ := normalize_set_eq_ok.1 h
    cases he
    -- Sorting neither makes nor changes elements.
    obtain ⟨key, hentry⟩ := Order.mem_of_sortUnique hsorted hmem
    obtain ⟨item, hitem, hnormal, _⟩ := forall₂_mem_right hentries hentry
    exact ⟨item, .element hitems hitem, hnormal⟩
  | key hmem =>
    obtain ⟨pairs, entries, sorted, hpairs, hentries, hsorted, he⟩ := normalize_map_eq_ok.1 h
    cases he
    -- The entry in the result is the pair that some entry was made of.
    obtain ⟨bs, hentry⟩ := Order.mem_of_sortUnique hsorted hmem
    obtain ⟨q, hq, p', hkey, _, _, he⟩ := forall₂_mem_right hentries hentry
    rw [Value.entry_injective he]
    exact ⟨q.1, .key hpairs hq, hkey⟩
  | value hmem =>
    obtain ⟨pairs, entries, sorted, hpairs, hentries, hsorted, he⟩ := normalize_map_eq_ok.1 h
    cases he
    obtain ⟨bs, hentry⟩ := Order.mem_of_sortUnique hsorted hmem
    obtain ⟨q, hq, p', _, hvalue, _, he⟩ := forall₂_mem_right hentries hentry
    rw [Value.entry_injective he]
    exact ⟨q.2, .value hpairs hq, hvalue⟩
  | present hnull =>
    rw [normalize_optional] at h
    -- A part that is present does not come from null.
    split at h
    · obtain rfl := Except.ok.inj h
      cases hnull
    · rename_i hv
      exact ⟨v.resolve, .present (by simpa using hv), h⟩
  | first =>
    obtain ⟨a, b, a', b', hv, ha, _, he⟩ := normalize_pair_eq_ok.1 h
    cases he
    exact ⟨a, .first hv, ha⟩
  | second =>
    obtain ⟨a, b, a', b', hv, _, hb, he⟩ := normalize_pair_eq_ok.1 h
    cases he
    exact ⟨b, .second hv, hb⟩
  | payload htag hcase =>
    obtain ⟨t, payload, tag, c, raw', hp, htag', hcase', hraw', he⟩ := normalize_variant_eq_ok.1 h
    cases he
    obtain rfl := UInt32.toNat_inj.1 (Int.ofNat.inj htag)
    obtain rfl := Option.some.inj (hcase.symm.trans hcase')
    exact ⟨payload, .payload hp htag' hcase, hraw'⟩
  | @field fields _ _ _ hmem =>
    have hdistinct : (fields.map Prod.fst).Nodup := hnames _ (.refl _)
    obtain ⟨record, raws, hv, _, hraws, he⟩ := (normalize_struct_eq_ok hdistinct).1 h
    cases he
    exact ⟨_, .field hv hmem, hraws.field hdistinct hmem⟩
  | operand htable htag hcase =>
    obtain ⟨table, htable', h⟩ := normalize_operation_eq_ok.1 h
    obtain rfl := Except.ok.inj (htable.symm.trans htable')
    obtain ⟨t, payload, tag, c, raw', hp, htag', hcase', hraw', he⟩ := normalize_variant_eq_ok.1 h
    cases he
    obtain rfl := UInt32.toNat_inj.1 (Int.ofNat.inj htag)
    obtain rfl := Option.some.inj (hcase.symm.trans hcase')
    exact ⟨payload, .operand hp htable htag' hcase, hraw'⟩

/-- Sources nest no deeper than what they come from. -/
theorem Source.arrayDepth_le (h : Source env c v d u) : u.arrayDepth ≤ v.arrayDepth := by
  cases h with
  | item hv hmem =>
    rw [← Value.arrayDepth_resolve v, hv]
    exact Nat.le_of_lt (Value.arrayDepth_lt_array hmem)
  | element hv hmem =>
    rw [← Value.arrayDepth_resolve v]
    exact Check.arrayDepth_elements_le hv hmem
  | key hv hmem =>
    rw [← Value.arrayDepth_resolve v]
    exact (Check.arrayDepth_entries_le hv hmem).1
  | value hv hmem =>
    rw [← Value.arrayDepth_resolve v]
    exact (Check.arrayDepth_entries_le hv hmem).2
  | present _ => exact Nat.le_of_eq (Value.arrayDepth_resolve v)
  | first hv | second hv | payload hv _ _ =>
    -- Both halves of a pair are in its array.
    have := Value.arrayDepth_lt_of_asPair? hv
    rw [Value.arrayDepth_resolve] at this
    omega
  | field hv _ =>
    rw [← Value.arrayDepth_resolve v, hv]
    exact Value.arrayDepth_field_le _ _
  | @operand link _ _ _ _ _ _ hv _ _ _ =>
    -- A fee that is filled in makes the input no deeper.
    have hpayload := Value.arrayDepth_lt_of_asPair? hv
    have hinput := arrayDepth_operationInput_le link v
    rw [Value.arrayDepth_resolve] at hpayload
    exact Nat.le_trans (Nat.le_of_lt hpayload.2) hinput

end ChainCodec.Codec
