import ChainCodec.Proofs.Reach
import ChainCodec.Proofs.Sequence

/-! # The shape of canonical values

    `Shaped` says what the canonical values of a codec look like, with one
    rule for each form of codec.  It carries a property that all parts of the
    value have, so that the same rules describe what normalization gives
    (entries in order), what can be encoded (nothing too long) and what is
    decoded.

    `Part` gives the parts themselves, and on the way to a part it counts the
    tagged unions that are opened; an operation is one. -/

namespace ChainCodec

namespace Value

/-- An entry of a canonical map. -/
def entry (p : Value × Value) : Value := .array [p.1, p.2]

theorem entry_injective {p q : Value × Value} (h : entry p = entry q) : p = q := by
  obtain ⟨a, b⟩ := p
  obtain ⟨c, d⟩ := q
  simp only [entry, array.injEq, List.cons.injEq, and_true] at h
  rw [h.1, h.2]

theorem resolve_resolve (v : Value) : v.resolve.resolve = v.resolve := by
  cases h : v.resolve with
  | lazy w => exact absurd h (resolve_ne_lazy v w)
  | _ => rfl

theorem isNull_iff {v : Value} : v.isNull = true ↔ v = .null := by
  cases v <;> simp [isNull]

theorem asPair?_entry (p : Value × Value) : (entry p).asPair? = some p := rfl

theorem arrayDepth_pair (a b : Value) :
    (array [a, b]).arrayDepth = max a.arrayDepth b.arrayDepth + 1 := by
  simp [arrayDepth, arrayDepthItems]

end Value

namespace Codec

/-! ## Parts -/

/-- One step from a value to a part of it, with the number of unions that
    the step opens. -/
inductive Child (env : Registries) : Codec → Value → Nat → Codec → Value → Prop
  | item {c : Codec} {items : List Value} {item : Value} (h : item ∈ items) :
      Child env (.vector c) (.array items) 0 c item
  | element {c : Codec} {items : List Value} {item : Value} (h : item ∈ items) :
      Child env (.set c) (.array items) 0 c item
  | key {c d : Codec} {items : List Value} {p : Value × Value} (h : Value.entry p ∈ items) :
      Child env (.map c d) (.array items) 0 c p.1
  | value {c d : Codec} {items : List Value} {p : Value × Value} (h : Value.entry p ∈ items) :
      Child env (.map c d) (.array items) 0 d p.2
  | present {c : Codec} {v : Value} (h : v.isNull = false) : Child env (.optional c) v 0 c v
  | first {c d : Codec} {a b : Value} : Child env (.pair c d) (.array [a, b]) 0 c a
  | second {c d : Codec} {a b : Value} : Child env (.pair c d) (.array [a, b]) 0 d b
  | payload {label : String} {cases : CaseTable} {n : Int} {tag : UInt32} {c : Codec}
      {payload : Value} (htag : n = tag.toNat) (hcase : cases.lookup tag = some c) :
      Child env (.variant label cases) (.array [.int n, payload]) 1 c payload
  | field {fields : List (String × Codec)} {ignoreUnknown : Bool} {record : Record Value}
      {f : String × Codec} (h : f ∈ fields) :
      Child env (.struct fields ignoreUnknown) (.object record) 0 f.2 (Value.field record f.1)
  | operand {link : OperationLink} {table : CaseTable} {n : Int} {tag : UInt32} {c : Codec}
      {payload : Value} (htable : (env link.registry).table = .ok table) (htag : n = tag.toNat)
      (hcase : table.lookup tag = some c) :
      Child env (.operation link) (.array [.int n, payload]) 1 c payload

/-- A value is a part of another, and so many unions are opened on the way
    to it. -/
inductive Part (env : Registries) : Codec → Value → Nat → Codec → Value → Prop
  | self {c : Codec} {v : Value} : Part env c v 0 c v
  | step {c d e : Codec} {v w x : Value} {k n : Nat} (h : Child env c v k d w)
      (h' : Part env d w n e x) : Part env c v (k + n) e x

theorem mem_of_lookup {α β : Type} [BEq α] [LawfulBEq α] {table : List (α × β)} {a : α} {b : β}
    (h : table.lookup a = some b) : (a, b) ∈ table := by
  obtain ⟨l₁, l₂, rfl, _⟩ := List.lookup_eq_some_iff.1 h
  simp

theorem lookup_cons_ne {t tag : UInt32} {c : Codec} {rest : CaseTable} (h : ¬ t = tag) :
    ((t, c) :: rest).lookup tag = rest.lookup tag := by
  have hne : (tag == t) = false := by simpa using fun e : tag = t => h e.symm
  rw [List.lookup_cons, hne]

/-- What searches a table for a tag does at the end what it does at the first
    case of the tag. -/
theorem search_of_lookup {β : Type} {tag : UInt32} {c : Codec} {cases : CaseTable}
    (search : CaseTable → β) (found : Codec → β)
    (hsearch : ∀ t d rest, search ((t, d) :: rest) = if t = tag then found d else search rest)
    (h : cases.lookup tag = some c) : search cases = found c := by
  induction cases with
  | nil => cases h
  | cons case rest ih =>
    obtain ⟨t, d⟩ := case
    rw [hsearch]
    by_cases ht : t = tag
    · rw [ht, List.lookup_cons_self] at h
      rw [if_pos ht, Option.some.inj h]
    · rw [lookup_cons_ne ht] at h
      rw [if_neg ht, ih h]

/-- What searches a table for a tag comes to the end if there is no case. -/
theorem search_of_lookup_none {β : Type} {tag : UInt32} {cases : CaseTable}
    (search : CaseTable → β) (found : Codec → β)
    (hsearch : ∀ t d rest, search ((t, d) :: rest) = if t = tag then found d else search rest)
    (h : cases.lookup tag = none) : search cases = search [] := by
  induction cases with
  | nil => rfl
  | cons case rest ih =>
    obtain ⟨t, d⟩ := case
    by_cases ht : t = tag
    · rw [ht, List.lookup_cons_self] at h
      cases h
    · rw [hsearch, if_neg ht]
      exact ih (by rwa [lookup_cons_ne ht] at h)

section Parts

variable {env : Registries} {c d : Codec} {v w : Value} {k n : Nat}

theorem Child.inside (h : Child env c v k d w) : Inside env c d := by
  cases h with
  | item _ => exact .vector
  | element _ => exact .set
  | key _ => exact .key
  | value _ => exact .value
  | present _ => exact .optional
  | first => exact .first
  | second => exact .second
  | payload _ hcase => exact .case (mem_of_lookup hcase)
  | field h => exact .field h
  | operand htable _ hcase => exact .operation htable (mem_of_lookup hcase)

theorem Part.reaches (h : Part env c v n d w) : Reaches env c d := by
  induction h with
  | self => exact .refl _
  | step h _ ih => exact .head h.inside ih

/-- The parts of a child are parts of the whole, one step further. -/
theorem Part.forall_child {Q : Codec → Value → Prop} (hQ : ∀ n d w, Part env c v n d w → Q d w)
    (h : Child env c v k d w) : ∀ n e x, Part env d w n e x → Q e x :=
  fun _ e x hx => hQ _ e x (.step h hx)

/-- Opening a union goes into an array. -/
theorem Child.arrayDepth_le (h : Child env c v k d w) : k + w.arrayDepth ≤ v.arrayDepth := by
  cases h with
  | item hmem | element hmem =>
    have := Value.arrayDepth_lt_array hmem
    omega
  | key hmem | value hmem =>
    -- An entry is an array too, so this is more than is needed.
    have := Value.arrayDepth_lt_array hmem
    rw [Value.entry, Value.arrayDepth_pair] at this
    omega
  | present _ => omega
  | first | second | payload _ _ | operand _ _ _ =>
    -- The array of the tag is the one that pays for the union.
    rw [Value.arrayDepth_pair]
    omega
  | field _ =>
    rw [Nat.zero_add]
    exact Value.arrayDepth_field_le _ _

theorem Part.arrayDepth_le (h : Part env c v n d w) : n + w.arrayDepth ≤ v.arrayDepth := by
  induction h with
  | self => omega
  | step h _ ih =>
    have := h.arrayDepth_le
    omega

/-- No path into the value opens more unions than the limit. -/
def NestsWithin (env : Registries) (limit : Nat) (c : Codec) (v : Value) : Prop :=
  ∀ n d w, Part env c v n d w → n ≤ limit

theorem nestsWithin_arrayDepth (env : Registries) (c : Codec) (v : Value) :
    NestsWithin env v.arrayDepth c v := by
  intro n d w hw
  have := hw.arrayDepth_le
  omega

theorem nestsWithin_of_arrayDepth_le {limit : Nat} (env : Registries) (c : Codec)
    (h : v.arrayDepth ≤ limit) : NestsWithin env limit c v := by
  intro n d w hw
  exact Nat.le_trans (nestsWithin_arrayDepth env c v n d w hw) h

/-- What nests within the limit is left with less of it behind a union. -/
theorem NestsWithin.child {i j : Nat} (h : NestsWithin env (i + j) c v)
    (hw : Child env c v j d w) : NestsWithin env i d w := by
  intro n e x hx
  have := h _ e x (.step hw hx)
  omega

theorem NestsWithin.le_of_child {limit : Nat} (h : NestsWithin env limit c v)
    (hw : Child env c v k d w) : k ≤ limit := h _ _ _ (.step hw .self)

end Parts

/-! ## Shapes -/

/-- The value looks like a canonical value of the codec, and its parts have
    the property. -/
inductive Shaped (env : Registries) (P : Codec → Value → Prop) : Codec → Value → Prop
  | int {t : IntType} {n : Int} (hP : P (.int t) (.int n)) (hlow : t.least ≤ n)
      (hhigh : n ≤ t.greatest) : Shaped env P (.int t) (.int n)
  | varint {n : UInt32} (hP : P .varint (.int n.toNat)) : Shaped env P .varint (.int n.toNat)
  | bool {b : Bool} (hP : P .bool (.bool b)) : Shaped env P .bool (.bool b)
  | bytes {size : Option Nat} {bs : Bytes} (hP : P (.bytes size) (.bytes bs))
      (hsize : ∀ n ∈ size, bs.length = n) : Shaped env P (.bytes size) (.bytes bs)
  | string {s : String} (hP : P .string (.str s)) : Shaped env P .string (.str s)
  | time {n : UInt32} (hP : P .time (.int n.toNat)) : Shaped env P .time (.int n.toNat)
  | void (hP : P .void .null) : Shaped env P .void .null
  | vector {c : Codec} {items : List Value} (hP : P (.vector c) (.array items))
      (hitems : ∀ item ∈ items, Shaped env P c item) : Shaped env P (.vector c) (.array items)
  | set {c : Codec} {items : List Value} (hP : P (.set c) (.array items))
      (hitems : ∀ item ∈ items, Shaped env P c item) : Shaped env P (.set c) (.array items)
  | map {c d : Codec} {items : List Value} {pairs : List (Value × Value)}
      (hP : P (.map c d) (.array items)) (hpairs : items = pairs.map Value.entry)
      (hkeys : ∀ p ∈ pairs, Shaped env P c p.1) (hvalues : ∀ p ∈ pairs, Shaped env P d p.2) :
      Shaped env P (.map c d) (.array items)
  | absent {c : Codec} (hP : P (.optional c) .null) : Shaped env P (.optional c) .null
  | present {c : Codec} {v : Value} (hP : P (.optional c) v) (hnull : v.isNull = false)
      (h : Shaped env P c v) : Shaped env P (.optional c) v
  | pair {c d : Codec} {a b : Value} (hP : P (.pair c d) (.array [a, b])) (ha : Shaped env P c a)
      (hb : Shaped env P d b) : Shaped env P (.pair c d) (.array [a, b])
  | variant {label : String} {cases : CaseTable} {n : Int} {tag : UInt32} {c : Codec}
      {payload : Value} (hP : P (.variant label cases) (.array [.int n, payload]))
      (htag : n = tag.toNat) (hcase : cases.lookup tag = some c) (h : Shaped env P c payload) :
      Shaped env P (.variant label cases) (.array [.int n, payload])
  | struct {fields : List (String × Codec)} {ignoreUnknown : Bool} {record : Record Value}
      (hP : P (.struct fields ignoreUnknown) (.object record))
      (hdistinct : (fields.map Prod.fst).Nodup) (hkeys : Record.keys record = fields.map Prod.fst)
      (hfields : ∀ f ∈ fields, Shaped env P f.2 (Value.field record f.1)) :
      Shaped env P (.struct fields ignoreUnknown) (.object record)
  | objectId {space type : UInt8} {more : List UInt8} {id : ObjectId}
      (hP : P (.objectId space type more) (.str id.render)) (hspace : id.space = space)
      (htype : id.type ∈ type :: more) (hinst : id.inst.toNat < UInt32.size) :
      Shaped env P (.objectId space type more) (.str id.render)
  | anyObjectId {id : ObjectId} (hP : P .anyObjectId (.str id.render))
      (hinst : id.inst.toNat < ObjectId.instanceSize) :
      Shaped env P .anyObjectId (.str id.render)
  | publicKey {scheme : KeyScheme} {start : String} {point : Bytes}
      (hP : P (.publicKey scheme start) (.str (PublicKey.render scheme start point)))
      (hcheck : PublicKey.check scheme point = .ok ()) :
      Shaped env P (.publicKey scheme start) (.str (PublicKey.render scheme start point))
  | address {scheme : AddressScheme} {start : String} {bs : Bytes} {a : Address}
      (hP : P (.address scheme start) (.str (a.render start)))
      (hbytes : Address.ofBytes scheme bs = .ok a) :
      Shaped env P (.address scheme start) (.str (a.render start))
  | operation {link : OperationLink} {table : CaseTable} {n : Int} {tag : UInt32} {c : Codec}
      {payload : Value} (hP : P (.operation link) (.array [.int n, payload]))
      (htable : (env link.registry).table = .ok table) (htag : n = tag.toNat)
      (hcase : table.lookup tag = some c) (h : Shaped env P c payload) :
      Shaped env P (.operation link) (.array [.int n, payload])

namespace Shaped

variable {env : Registries} {P Q : Codec → Value → Prop} {c d : Codec} {v w : Value} {k n : Nat}

theorem holds (h : Shaped env P c v) : P c v := by
  cases h <;> assumption

/-- A map is a list of entries. -/
theorem map_of_items {items : List Value} (hP : P (.map c d) (.array items))
    (h : ∀ item ∈ items, ∃ p, item = Value.entry p ∧ Shaped env P c p.1 ∧ Shaped env P d p.2) :
    Shaped env P (.map c d) (.array items) := by
  -- Choose the entries, one for each item, and split what is known of them.
  obtain ⟨pairs, hpairs⟩ := exists_forall₂ h
  have hsplit : items = pairs.map Value.entry := by
    rw [← List.forall₂_eq_eq_eq, List.forall₂_map_right_iff]
    exact hpairs.imp fun _ _ hp => hp.1
  have hshapes : ∀ p ∈ pairs, Shaped env P c p.1 ∧ Shaped env P d p.2 := by
    intro p hp
    obtain ⟨_, _, _, hshapes⟩ := forall₂_mem_right hpairs hp
    exact hshapes
  exact .map hP hsplit (fun p hp => (hshapes p hp).1) fun p hp => (hshapes p hp).2

/-- A step leads from a shape to a shape. -/
theorem child (h : Shaped env P c v) (hw : Child env c v k d w) : Shaped env P d w := by
  cases hw with
  | item hmem =>
    cases h with
    | vector _ hitems => exact hitems _ hmem
  | element hmem =>
    cases h with
    | set _ hitems => exact hitems _ hmem
  | key hmem =>
    cases h with
    | map _ hpairs hkeys _ =>
      rw [hpairs] at hmem
      obtain ⟨p, hp, he⟩ := List.mem_map.1 hmem
      rw [← Value.entry_injective he]
      exact hkeys p hp
  | value hmem =>
    cases h with
    | map _ hpairs _ hvalues =>
      rw [hpairs] at hmem
      obtain ⟨p, hp, he⟩ := List.mem_map.1 hmem
      rw [← Value.entry_injective he]
      exact hvalues p hp
  | present hnull =>
    cases h with
    | absent _ => cases hnull
    | present _ _ h => exact h
  | first =>
    cases h with
    | pair _ ha _ => exact ha
  | second =>
    cases h with
    | pair _ _ hb => exact hb
  | payload htag hcase =>
    cases h with
    | variant _ htag' hcase' h =>
      -- Two numbers for one tag, and so two codecs for one case.
      obtain rfl := UInt32.toNat_inj.1 (Int.ofNat.inj (htag.symm.trans htag'))
      obtain rfl := Option.some.inj (hcase.symm.trans hcase')
      exact h
  | field hmem =>
    cases h with
    | struct _ _ _ hfields => exact hfields _ hmem
  | operand htable htag hcase =>
    cases h with
    | operation _ htable' htag' hcase' h =>
      obtain rfl := Except.ok.inj (htable.symm.trans htable')
      obtain rfl := UInt32.toNat_inj.1 (Int.ofNat.inj (htag.symm.trans htag'))
      obtain rfl := Option.some.inj (hcase.symm.trans hcase')
      exact h

theorem part (h : Shaped env P c v) (hw : Part env c v n d w) : Shaped env P d w := by
  induction hw with
  | self => exact h
  | step hchild _ ih => exact ih (h.child hchild)

/-- A shape may carry any property that all parts have. -/
theorem of_parts (h : Shaped env P c v) (hQ : ∀ n d w, Part env c v n d w → Q d w) :
    Shaped env Q c v := by
  -- The property of the parts goes into the motive, since a child has parts
  -- of its own.
  induction h with
  | int _ hlow hhigh => exact .int (hQ 0 _ _ .self) hlow hhigh
  | varint _ => exact .varint (hQ 0 _ _ .self)
  | bool _ => exact .bool (hQ 0 _ _ .self)
  | bytes _ hsize => exact .bytes (hQ 0 _ _ .self) hsize
  | string _ => exact .string (hQ 0 _ _ .self)
  | time _ => exact .time (hQ 0 _ _ .self)
  | void _ => exact .void (hQ 0 _ _ .self)
  | vector _ _ ih =>
    refine .vector (hQ 0 _ _ .self) fun item hmem => ?_
    exact ih item hmem (Part.forall_child hQ (.item hmem))
  | set _ _ ih =>
    refine .set (hQ 0 _ _ .self) fun item hmem => ?_
    exact ih item hmem (Part.forall_child hQ (.element hmem))
  | map _ hpairs _ _ ihkeys ihvalues =>
    have hentry : ∀ {p}, p ∈ _ → Value.entry p ∈ _ := fun hp =>
      hpairs ▸ List.mem_map_of_mem hp
    refine .map (hQ 0 _ _ .self) hpairs (fun p hp => ?_) fun p hp => ?_
    · exact ihkeys p hp (Part.forall_child hQ (.key (hentry hp)))
    · exact ihvalues p hp (Part.forall_child hQ (.value (hentry hp)))
  | absent _ => exact .absent (hQ 0 _ _ .self)
  | present _ hnull _ ih =>
    exact .present (hQ 0 _ _ .self) hnull (ih (Part.forall_child hQ (.present hnull)))
  | pair _ _ _ iha ihb =>
    refine .pair (hQ 0 _ _ .self) ?_ ?_
    · exact iha (Part.forall_child hQ .first)
    · exact ihb (Part.forall_child hQ .second)
  | variant _ htag hcase _ ih =>
    refine .variant (hQ 0 _ _ .self) htag hcase ?_
    exact ih (Part.forall_child hQ (.payload htag hcase))
  | struct _ hdistinct hkeys _ ih =>
    refine .struct (hQ 0 _ _ .self) hdistinct hkeys fun f hf => ?_
    exact ih f hf (Part.forall_child hQ (.field hf))
  | objectId _ hspace htype hinst => exact .objectId (hQ 0 _ _ .self) hspace htype hinst
  | anyObjectId _ hinst => exact .anyObjectId (hQ 0 _ _ .self) hinst
  | publicKey _ hcheck => exact .publicKey (hQ 0 _ _ .self) hcheck
  | address _ hbytes => exact .address (hQ 0 _ _ .self) hbytes
  | operation _ htable htag hcase _ ih =>
    refine .operation (hQ 0 _ _ .self) htable htag hcase ?_
    exact ih (Part.forall_child hQ (.operand htable htag hcase))

theorem imp (h : Shaped env P c v) (hPQ : ∀ d w, P d w → Q d w) : Shaped env Q c v :=
  h.of_parts fun _ d w hw => hPQ d w (h.part hw).holds

/-! ### Null and lazy values -/

theorem isNull_eq_false (h : Shaped env P c v) (hc : c.nullable = false) : v.isNull = false := by
  cases h <;> first | rfl | cases hc

theorem resolve_eq (h : Shaped env P c v) : v.resolve = v := by
  induction h with
  | present _ _ _ ih => exact ih
  | _ => rfl

end Shaped

end Codec

end ChainCodec
