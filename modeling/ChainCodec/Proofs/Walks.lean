import ChainCodec.Proofs.Sources

/-! # Walks from a value to its parts

    An operand is a part that a codec goes into, with the steps that lead to it.
    A walk goes from the whole to an operand, from this to one of its own, and so
    on, past operands that came before and were no obstacle. -/

namespace ChainCodec.Codec

/-- A part of a value, and the codec of the part. -/
structure Operand where
  /-- Where the part is in the value; the inner value of an optional one is in the
      same place. -/
  steps : List Context
  codec : Codec
  value : Value

/-! ## Walks -/

/-- The value `u` lies in `v` at the end of the path, and all operands that come
    before one on the path pass. -/
inductive Walk (operands : Codec → Value → List Operand) (passes : Codec → Value → Prop) :
    Codec → Value → List Context → Codec → Value → Prop
  | here {c : Codec} {v : Value} : Walk operands passes c v [] c v
  | inside {c d : Codec} {v u : Value} {path : List Context} {before after : List Operand}
      {o : Operand} (hoperands : operands c v = before ++ o :: after)
      (hbefore : ∀ x ∈ before, passes x.codec x.value)
      (h : Walk operands passes o.codec o.value path d u) :
      Walk operands passes c v (o.steps ++ path) d u

/-- A walk may come to an operation. -/
def Meets (operands : Codec → Value → List Operand) (passes : Codec → Value → Prop) (c : Codec)
    (v : Value) : Prop :=
  ∃ path link u, Walk operands passes c v path (.operation link) u

theorem Meets.inside {operands : Codec → Value → List Operand} {passes : Codec → Value → Prop}
    {c : Codec} {v : Value} (before : List Operand) {after : List Operand} {o : Operand}
    (hoperands : operands c v = before ++ o :: after)
    (hbefore : ∀ x ∈ before, passes x.codec x.value)
    (h : Meets operands passes o.codec o.value) : Meets operands passes c v := by
  obtain ⟨path, link, u, hwalk⟩ := h
  exact ⟨_, link, u, .inside hoperands hbefore hwalk⟩

/-- Where a walk comes to operations, the codec is built from some. -/
theorem Meets.reaches {operands : Codec → Value → List Operand} {passes : Codec → Value → Prop}
    (hinside : ∀ c v o, (∀ link, c ≠ .operation link) → o ∈ operands c v →
      Inside noTables c o.codec)
    {c : Codec} {v : Value} (h : Meets operands passes c v) :
    ∃ link, Reaches noTables c (.operation link) := by
  obtain ⟨path, link, u, hwalk⟩ := h
  generalize hop : Codec.operation link = d at hwalk
  induction hwalk with
  | here => exact ⟨link, hop ▸ .refl _⟩
  | @inside c _ v _ _ before after o hoperands _ _ ih =>
    by_cases hc : ∃ link, c = .operation link
    · obtain ⟨link, rfl⟩ := hc
      exact ⟨link, .refl _⟩
    · obtain ⟨link, hlink⟩ := ih hop
      have hmem := hinside c v o (fun link hlink => hc ⟨link, hlink⟩)
        (hoperands ▸ List.mem_append_cons_self)
      exact ⟨link, .head hmem hlink⟩

/-! ## Operands of normalization -/

/-- What is found behind a check, if the check is passed. -/
def behind {α : Type} (x : Except Error α) (f : α → List Operand) : List Operand :=
  match x with
  | .ok a => f a
  | .error _ => []

def elementOperands (c : Codec) (items : List Value) : List Operand :=
  items.zipIdx.map fun x => ⟨[.element x.2], c, x.1⟩

/-- Every key, and its value after it. -/
def entryOperands (c d : Codec) (entries : List (Value × Value)) : List Operand :=
  entries.zipIdx.flatMap fun x => [⟨[.key x.2], c, x.1.1⟩, ⟨[.value x.2], d, x.1.2⟩]

def pairOperands (c d : Codec) (p : Value × Value) : List Operand :=
  [⟨[.element 0], c, p.1⟩, ⟨[.element 1], d, p.2⟩]

/-- The payload, if there is a case for the tag. -/
def payloadOperands (label : String) (cases : CaseTable) (tag : UInt32) (payload : Value) :
    List Operand :=
  match cases.lookup tag with
  | some c => [⟨[.variant label tag], c, payload⟩]
  | none => []

/-- The fields in the order of the schema; one that is missing is null. -/
def fieldOperands (fields : List (String × Codec)) (record : Record Value) : List Operand :=
  fields.map fun f => ⟨[.field f.1], f.2, Value.field record f.1⟩

def taggedOperands (label : String) (cases : CaseTable) (v : Value) : List Operand :=
  behind (Check.tagged v.resolve) fun p =>
    behind (Check.tag p.1.resolve) fun tag => payloadOperands label cases tag p.2

/-- The parts that normalization goes into, in its order.  There are none if
    the codec refuses the value before it looks into any. -/
def operands (env : Registries) : Codec → Value → List Operand
  | .vector c, v => behind (Check.array "vector" v.resolve) (elementOperands c)
  | .set c, v => behind (Check.elements v.resolve) (elementOperands c)
  | .map c d, v => behind (Check.entries c.hasTextForm v.resolve) (entryOperands c d)
  | .optional c, v => if v.resolve.isNull then [] else [⟨[], c, v.resolve⟩]
  | .pair c d, v => behind (Check.pair v.resolve) (pairOperands c d)
  | .variant label cases, v => taggedOperands label cases v
  | .struct fields ignoreUnknown, v =>
      behind (Check.object v.resolve) fun record =>
        behind (Check.keys ignoreUnknown (fields.map Prod.fst) record) fun _ =>
          fieldOperands fields record
  | .operation link, v =>
      behind (env link.registry).table fun table => taggedOperands operationLabel table v
  | _, _ => []

def Accepted (env : Registries) (c : Codec) (v : Value) : Prop := ∃ raw, normalize env c v = .ok raw

/-! ## Operands of canonical values -/

/-- The entries of a map, up to the first item that is none. -/
def leadingEntries : List Value → List (Value × Value)
  | [] => []
  | item :: items =>
      match item.asPair? with
      | some p => p :: leadingEntries items
      | none => []

/-- The parts of a canonical value that are written or rendered, in order.  Of a
    struct some fields may be left out; operations are not looked into. -/
def rawOperands (leaveOut : Value → Bool) : Codec → Value → List Operand
  | .vector c, v => behind (Check.array "vector" v) (elementOperands c)
  | .set c, v => behind (Check.array "set" v) (elementOperands c)
  | .map c d, v =>
      behind (Check.canonicalEntries v) fun items => entryOperands c d (leadingEntries items)
  | .optional c, v => if v.isNull then [] else [⟨[], c, v⟩]
  | .pair c d, v => behind (Check.pair v) (pairOperands c d)
  | .variant label cases, v =>
      behind (Check.tagged v) fun p =>
        behind (Check.tag p.1) fun tag => payloadOperands label cases tag p.2
  | .struct fields _, v =>
      behind (Check.object v) fun record =>
        fieldOperands (fields.filter fun f => !leaveOut (Value.field record f.1)) record
  | _, _ => []

section Operands

variable {env : Registries} {c d : Codec} {v : Value} {o : Operand}

theorem mem_behind {α : Type} {x : Except Error α} {f : α → List Operand} :
    o ∈ behind x f ↔ ∃ a, x = .ok a ∧ o ∈ f a := by
  cases x <;> simp [behind]

theorem behind_ok {α : Type} {x : Except Error α} {a : α} (h : x = .ok a)
    (f : α → List Operand) : behind x f = f a := by
  rw [h, behind]

/-- An element stands between those before it and those after it. -/
theorem elementOperands_append (c : Codec) (before : List Value) (item : Value)
    (after : List Value) :
    ∃ rest, elementOperands c (before ++ item :: after) =
      elementOperands c before ++ ⟨[.element before.length], c, item⟩ :: rest := by
  refine ⟨(after.zipIdx (before.length + 1)).map fun x => ⟨[.element x.2], c, x.1⟩, ?_⟩
  simp only [elementOperands, List.zipIdx_append, List.zipIdx_cons, List.map_append, List.map_cons,
    Nat.zero_add]

theorem entryOperands_append (c d : Codec) (before : List (Value × Value)) (p : Value × Value)
    (after : List (Value × Value)) :
    ∃ rest, entryOperands c d (before ++ p :: after) =
      entryOperands c d before ++ ⟨[.key before.length], c, p.1⟩ ::
        ⟨[.value before.length], d, p.2⟩ :: rest := by
  refine ⟨(after.zipIdx (before.length + 1)).flatMap fun x =>
    [⟨[.key x.2], c, x.1.1⟩, ⟨[.value x.2], d, x.1.2⟩], ?_⟩
  simp only [entryOperands, List.zipIdx_append, List.zipIdx_cons, List.flatMap_append,
    List.flatMap_cons, Nat.zero_add, List.cons_append, List.nil_append]

theorem fieldOperands_append (before : List (String × Codec)) (f : String × Codec)
    (after : List (String × Codec)) (record : Record Value) :
    fieldOperands (before ++ f :: after) record =
      fieldOperands before record ++
        ⟨[.field f.1], f.2, Value.field record f.1⟩ :: fieldOperands after record := by
  simp only [fieldOperands, List.map_append, List.map_cons]

/-- Entries at the start are found, whatever comes after them. -/
theorem leadingEntries_append {item : Value} {p : Value × Value} (hp : item.asPair? = some p)
    (pairs : List (Value × Value)) (items : List Value) :
    leadingEntries (pairs.map Value.entry ++ item :: items) =
      pairs ++ p :: leadingEntries items := by
  induction pairs with
  | nil => rw [List.map_nil, List.nil_append, leadingEntries, hp, List.nil_append]
  | cons q pairs ih =>
    rw [List.map_cons, List.cons_append, leadingEntries, Value.asPair?_entry, ih, List.cons_append]

/-- Items that are entries are the entries of some pairs. -/
theorem exists_pairs {R : Value × Value → Prop} {items : List Value}
    (h : ∀ item ∈ items, ∃ p, item = Value.entry p ∧ R p) :
    ∃ pairs : List (Value × Value), items = pairs.map Value.entry ∧ ∀ p ∈ pairs, R p := by
  obtain ⟨pairs, hpairs⟩ := exists_forall₂ h
  induction hpairs with
  | nil => exact ⟨[], rfl, by simp⟩
  | cons hitem _ ih =>
    obtain ⟨rfl, hR⟩ := hitem
    obtain ⟨pairs, rfl, hpairs⟩ := ih fun item hitem => h item (List.mem_cons_of_mem _ hitem)
    refine ⟨_ :: pairs, rfl, fun p hp => ?_⟩
    rcases List.mem_cons.1 hp with rfl | hp
    · exact hR
    · exact hpairs p hp

theorem mem_elementOperands {items : List Value} (h : o ∈ elementOperands c items) :
    o.codec = c ∧ o.value ∈ items := by
  obtain ⟨x, hx, rfl⟩ := List.mem_map.1 h
  exact ⟨rfl, List.fst_mem_of_mem_zipIdx hx⟩

theorem mem_entryOperands {entries : List (Value × Value)} (h : o ∈ entryOperands c d entries) :
    ∃ p ∈ entries, (o.codec = c ∧ o.value = p.1) ∨ (o.codec = d ∧ o.value = p.2) := by
  obtain ⟨x, hx, ho⟩ := List.mem_flatMap.1 h
  refine ⟨x.1, List.fst_mem_of_mem_zipIdx hx, ?_⟩
  rcases List.mem_pair.1 ho with rfl | rfl
  · exact .inl ⟨rfl, rfl⟩
  · exact .inr ⟨rfl, rfl⟩

/-! What holds of all parts holds of all operands. -/

theorem forall_elementOperands (R : Codec → Value → Prop) {items : List Value}
    (h : ∀ item ∈ items, R c item) : ∀ o ∈ elementOperands c items, R o.codec o.value := by
  intro o ho
  obtain ⟨hc, hvalue⟩ := mem_elementOperands ho
  rw [hc]
  exact h _ hvalue

theorem forall_entryOperands (R : Codec → Value → Prop) {entries : List (Value × Value)}
    (h : ∀ p ∈ entries, R c p.1 ∧ R d p.2) :
    ∀ o ∈ entryOperands c d entries, R o.codec o.value := by
  intro o ho
  obtain ⟨p, hp, ⟨hc, hvalue⟩ | ⟨hc, hvalue⟩⟩ := mem_entryOperands ho
  · rw [hc, hvalue]
    exact (h p hp).1
  · rw [hc, hvalue]
    exact (h p hp).2

theorem forall_fieldOperands (R : Codec → Value → Prop) {fields : List (String × Codec)}
    {record : Record Value} (h : ∀ f ∈ fields, R f.2 (Value.field record f.1)) :
    ∀ o ∈ fieldOperands fields record, R o.codec o.value := by
  intro o ho
  obtain ⟨f, hf, rfl⟩ := List.mem_map.1 ho
  exact h f hf

theorem mem_payloadOperands {label : String} {cases : CaseTable} {tag : UInt32} {payload : Value}
    (h : o ∈ payloadOperands label cases tag payload) :
    cases.lookup tag = some o.codec ∧ o.value = payload := by
  simp only [payloadOperands] at h
  split at h
  · rename_i hcase
    obtain rfl := List.mem_singleton.1 h
    exact ⟨hcase, rfl⟩
  · cases h

theorem mem_taggedOperands {label : String} {cases : CaseTable}
    (h : o ∈ taggedOperands label cases v) :
    ∃ t tag, v.resolve.asPair? = some (t, o.value) ∧ Check.tag t.resolve = .ok tag ∧
      cases.lookup tag = some o.codec := by
  obtain ⟨p, hp, h⟩ := mem_behind.1 h
  obtain ⟨tag, htag, h⟩ := mem_behind.1 h
  obtain ⟨hcase, hvalue⟩ := mem_payloadOperands h
  exact ⟨p.1, tag, hvalue ▸ Check.tagged_eq_ok.1 hp, htag, hcase⟩

/-- What a canonical value is taken apart into belongs to codecs that the codec is
    built from. -/
theorem inside_of_mem_rawOperands {leaveOut : Value → Bool} (h : o ∈ rawOperands leaveOut c v) :
    Inside noTables c o.codec := by
  cases c with
  | vector c =>
    obtain ⟨items, _, h⟩ := mem_behind.1 h
    exact (mem_elementOperands h).1 ▸ .vector
  | set c =>
    obtain ⟨items, _, h⟩ := mem_behind.1 h
    exact (mem_elementOperands h).1 ▸ .set
  | map c d =>
    obtain ⟨items, _, h⟩ := mem_behind.1 h
    obtain ⟨p, _, ⟨hc, _⟩ | ⟨hc, _⟩⟩ := mem_entryOperands h
    · exact hc ▸ .key
    · exact hc ▸ .value
  | optional c =>
    simp only [rawOperands] at h
    split at h
    · cases h
    · obtain rfl := List.mem_singleton.1 h
      exact .optional
  | pair c d =>
    obtain ⟨p, _, h⟩ := mem_behind.1 h
    rcases List.mem_pair.1 h with rfl | rfl
    · exact .first
    · exact .second
  | variant label cases =>
    obtain ⟨p, _, h⟩ := mem_behind.1 h
    obtain ⟨tag, _, h⟩ := mem_behind.1 h
    exact .case (mem_of_lookup (mem_payloadOperands h).1)
  | struct fields ignoreUnknown =>
    obtain ⟨record, _, h⟩ := mem_behind.1 h
    obtain ⟨f, hf, rfl⟩ := List.mem_map.1 h
    exact .field (List.mem_of_mem_filter hf)
  | operation | int | varint | bool | bytes | string | time | void | objectId | anyObjectId
  | publicKey | address => cases h

theorem Meets.reaches_of_raw {leaveOut : Value → Bool} {passes : Codec → Value → Prop}
    (h : Meets (rawOperands leaveOut) passes c v) : ∃ link, Reaches noTables c (.operation link) :=
  h.reaches fun _ _ _ _ => inside_of_mem_rawOperands

/-- Operands are sources, as long as no fee is filled in. -/
theorem source_of_mem_operands (hfee : ∀ link, c = .operation link → link.zeroFee = false)
    (h : o ∈ operands env c v) : Source env c v o.codec o.value := by
  cases c with
  | vector c =>
    obtain ⟨items, hv, h⟩ := mem_behind.1 h
    obtain ⟨rfl, hitem⟩ := mem_elementOperands h
    exact .item (Check.array_eq_ok.1 hv) hitem
  | set c =>
    obtain ⟨items, hv, h⟩ := mem_behind.1 h
    obtain ⟨rfl, hitem⟩ := mem_elementOperands h
    exact .element hv hitem
  | map c d =>
    obtain ⟨entries, hv, h⟩ := mem_behind.1 h
    obtain ⟨p, hp, ⟨rfl, hvalue⟩ | ⟨rfl, hvalue⟩⟩ := mem_entryOperands h
    · rw [hvalue]
      exact .key hv hp
    · rw [hvalue]
      exact .value hv hp
  | optional c =>
    simp only [operands] at h
    split at h
    · cases h
    · rename_i hnull
      obtain rfl := List.mem_singleton.1 h
      exact .present (Bool.eq_false_iff.2 hnull)
  | pair c d =>
    obtain ⟨p, hv, h⟩ := mem_behind.1 h
    rcases List.mem_pair.1 h with rfl | rfl
    · exact .first (Check.pair_eq_ok.1 hv)
    · exact .second (Check.pair_eq_ok.1 hv)
  | variant label cases =>
    obtain ⟨t, tag, hv, htag, hcase⟩ := mem_taggedOperands h
    exact .payload hv htag hcase
  | struct fields ignoreUnknown =>
    obtain ⟨record, hv, h⟩ := mem_behind.1 h
    obtain ⟨_, _, h⟩ := mem_behind.1 h
    obtain ⟨f, hf, rfl⟩ := List.mem_map.1 h
    exact .field (Check.object_eq_ok.1 hv) hf
  | operation link =>
    obtain ⟨table, htable, h⟩ := mem_behind.1 h
    obtain ⟨t, tag, hv, htag, hcase⟩ := mem_taggedOperands h
    have hinput : operationInput link v = v := by simp [operationInput, hfee link rfl]
    exact .operand (by rwa [hinput]) htable htag hcase
  | int | varint | bool | bytes | string | time | void | objectId | anyObjectId | publicKey
  | address => cases h

end Operands

/-! ## Operations inside operands -/

namespace Meets

variable {operands : Codec → Value → List Operand} {passes : Codec → Value → Prop}
  {whole c d : Codec} {v : Value}

theorem of_single {steps : List Context} {w : Value}
    (hoperands : operands whole v = [⟨steps, c, w⟩]) (h : Meets operands passes c w) :
    Meets operands passes whole v :=
  .inside [] hoperands (by simp) h

theorem of_element {before after : List Value} {item : Value}
    (hoperands : operands whole v = elementOperands c (before ++ item :: after))
    (hbefore : ∀ x ∈ before, passes c x) (h : Meets operands passes c item) :
    Meets operands passes whole v := by
  obtain ⟨rest, hrest⟩ := elementOperands_append c before item after
  exact .inside _ (hoperands.trans hrest) (forall_elementOperands passes hbefore) h

section Entries

variable {before after : List (Value × Value)} {p : Value × Value}
  (hoperands : operands whole v = entryOperands c d (before ++ p :: after))
  (hbefore : ∀ x ∈ before, passes c x.1 ∧ passes d x.2)
include hoperands hbefore

theorem of_key (h : Meets operands passes c p.1) : Meets operands passes whole v := by
  obtain ⟨rest, hrest⟩ := entryOperands_append c d before p after
  exact .inside _ (hoperands.trans hrest) (forall_entryOperands passes hbefore) h

theorem of_value (hkey : passes c p.1) (h : Meets operands passes d p.2) :
    Meets operands passes whole v := by
  obtain ⟨rest, hrest⟩ := entryOperands_append c d before p after
  rw [hrest, List.append_cons] at hoperands
  refine .inside _ hoperands (fun x hx => ?_) h
  rcases List.mem_append.1 hx with hx | hx
  · exact forall_entryOperands passes hbefore x hx
  · obtain rfl := List.mem_singleton.1 hx
    exact hkey

end Entries

theorem of_first {p : Value × Value} (hoperands : operands whole v = pairOperands c d p)
    (h : Meets operands passes c p.1) : Meets operands passes whole v :=
  .inside [] hoperands (by simp) h

theorem of_second {p : Value × Value} (hoperands : operands whole v = pairOperands c d p)
    (hfirst : passes c p.1) (h : Meets operands passes d p.2) : Meets operands passes whole v := by
  refine .inside [⟨[.element 0], c, p.1⟩] hoperands (fun x hx => ?_) h
  obtain rfl := List.mem_singleton.1 hx
  exact hfirst

theorem of_payload {label : String} {cases : CaseTable} {tag : UInt32} {payload : Value}
    (hoperands : operands whole v = payloadOperands label cases tag payload)
    (hcase : cases.lookup tag = some c) (h : Meets operands passes c payload) :
    Meets operands passes whole v := by
  rw [payloadOperands, hcase] at hoperands
  exact .of_single hoperands h

theorem of_field {before after : List (String × Codec)} {f : String × Codec}
    {record : Record Value}
    (hoperands : operands whole v = fieldOperands (before ++ f :: after) record)
    (hbefore : ∀ g ∈ before, passes g.2 (Value.field record g.1))
    (h : Meets operands passes f.2 (Value.field record f.1)) : Meets operands passes whole v := by
  rw [fieldOperands_append] at hoperands
  exact .inside _ hoperands (forall_fieldOperands passes hbefore) h

end Meets

end ChainCodec.Codec
