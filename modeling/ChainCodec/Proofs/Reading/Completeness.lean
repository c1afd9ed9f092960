import ChainCodec.Proofs.Reading.Soundness
import ChainCodec.Proofs.Unfolding.Read

/-! # Every spelling is read

    Bytes that spell a value are read as this value, wherever they stand,
    unless there is too little room for the unions that have to be opened:
    `read_yields`.  So bytes are deserialized to a value exactly if they spell
    it: `deserialize_eq_ok_iff`.

    The proof follows the spelling; an operation is read as the union behind
    it. -/

namespace ChainCodec.Codec

open Read

variable {env : Registries} {c d : Codec} {k : Nat} {bs : Bytes} {v : Value}

theorem yields_vector {count : Bytes} {parts : List Order.Entry}
    (hcount : Varint.Counts parts.length count)
    (h : ∀ e ∈ parts, Yields k (read env c) e.1 e.2) :
    Yields k (read env (.vector c)) (count ++ parts.flatMap Prod.fst)
      (.array (parts.map Prod.snd)) := by
  have hitem : ∀ e ∈ parts, ∀ i, Yields k (Read.within (.element i) (read env c)) e.1 e.2 :=
    fun e he i => (h e he).within (.element i)
  rw [← List.append_nil (parts.flatMap Prod.fst)]
  exact yields_counted hcount hitem (yields_pure _)

theorem yields_set {count : Bytes} {parts : List Order.Entry} {items : List Value}
    (hcount : Varint.Counts parts.length count)
    (h : ∀ e ∈ parts, Yields k (read env c) e.1 e.2)
    (hsorted : Order.sortUnique parts = .ok items) :
    Yields k (read env (.set c)) (count ++ parts.flatMap Prod.fst) (.array items) := by
  -- Each element is measured, so that its bytes are the key of its entry.
  have hentry : ∀ e ∈ parts, ∀ i : Nat, Yields k (do
      let start ← position
      let item ← Read.within (.element i) (read env c)
      let bs ← since start
      pure (bs, item)) e.1 (id e) := by
    intro e he i
    rw [← List.append_nil e.1]
    exact ((h e he).within (.element i)).measured (yields_pure e)
  rw [← List.append_nil (parts.flatMap Prod.fst)]
  refine yields_counted hcount hentry ?_
  rw [List.map_id]
  exact yields_ordered hsorted

theorem yields_map {count : Bytes} {parts : List (Order.Entry × Order.Entry)} {items : List Value}
    (hcount : Varint.Counts parts.length count)
    (hkeys : ∀ e ∈ parts, Yields k (read env c) e.1.1 e.1.2)
    (hvalues : ∀ e ∈ parts, Yields k (read env d) e.2.1 e.2.2)
    (hsorted : Order.sortUnique (parts.map fun e => (e.1.1, Value.entry (e.1.2, e.2.2))) =
      .ok items) :
    Yields k (read env (.map c d)) (count ++ parts.flatMap fun e => e.1.1 ++ e.2.1)
      (.array items) := by
  -- Only the key is measured.
  have hentry : ∀ e ∈ parts, ∀ i : Nat, Yields k (do
      let start ← position
      let key ← Read.within (.key i) (read env c)
      let bs ← since start
      let value ← Read.within (.value i) (read env d)
      pure (bs, Value.array [key, value])) (e.1.1 ++ e.2.1)
        (e.1.1, Value.entry (e.1.2, e.2.2)) := by
    intro e he i
    refine ((hkeys e he).within (.key i)).measured ?_
    exact ((hvalues e he).within (.value i)).bind_nil (yields_pure _)
  rw [← List.append_nil (parts.flatMap _)]
  exact yields_counted hcount hentry (yields_ordered hsorted)

theorem yields_present (h : Yields k (read env c) bs v) :
    Yields k (read env (.optional c)) (1 :: bs) v :=
  (yields_byte 1).bind h

theorem yields_pair {as : Bytes} {a b : Value} (ha : Yields k (read env c) as a)
    (hb : Yields k (read env d) bs b) :
    Yields k (read env (.pair c d)) (as ++ bs) (.array [a, b]) :=
  (ha.within (.element 0)).bind ((hb.within (.element 1)).bind_nil (yields_pure _))

theorem readCase_of_lookup {op : ReadOperation} {label : String} {tag : UInt32}
    {cases : CaseTable} (h : cases.lookup tag = some c) :
    readCase op label tag cases =
      Read.nested (Read.within (.variant label tag) (readWith op c)) := by
  refine search_of_lookup (readCase op label tag)
    (fun c => Read.nested (Read.within (.variant label tag) (readWith op c))) (fun t d rest => ?_) h
  rw [readCase]

theorem yields_case {op : ReadOperation} {label : String} {tag : UInt32} {cases : CaseTable}
    (hcase : cases.lookup tag = some c) (h : Yields k (readWith op c) bs v) :
    Yields (k + 1) (readCase op label tag cases) bs v := by
  rw [readCase_of_lookup hcase]
  exact (h.within (.variant label tag)).nested

theorem yields_variant {label : String} {cases : CaseTable} {tag : UInt32} {as : Bytes}
    (htag : Varint.Spells tag as) (hcase : cases.lookup tag = some c)
    (h : Yields k (read env c) bs v) :
    Yields (k + 1) (read env (.variant label cases)) (as ++ bs) (.array [.int tag.toNat, v]) := by
  exact (yields_varint htag).bind ((yields_case hcase h).bind_nil (yields_pure _))

theorem yields_fields {op : ReadOperation} {parts : List ((String × Codec) × Order.Entry)}
    (h : ∀ p ∈ parts, Yields k (readWith op p.1.2) p.2.1 p.2.2) :
    Yields k (readFields op (parts.map Prod.fst)) (parts.flatMap fun p => p.2.1)
      (parts.map fun p => (p.1.1, p.2.2)) := by
  induction parts with
  | nil =>
    simp only [List.map_nil, readFields]
    exact yields_pure []
  | cons p parts ih =>
    obtain ⟨⟨name, c⟩, bs, v⟩ := p
    have hrest := ih fun q hq => h q (by simp [hq])
    simp only [List.map_cons, readFields, List.flatMap_cons]
    exact ((h ((name, c), bs, v) (by simp)).within (.field name)).bind
      (hrest.bind_nil (yields_pure _))

theorem yields_operation {link : OperationLink} {table : CaseTable}
    (htable : (env link.registry).table = .ok table)
    (h : Yields k (read env (.variant operationLabel table)) bs v) :
    Yields k (read env (.operation link)) bs v := by
  have hunion := Registries.unionOf_eq_ok.2 ⟨table, htable, rfl⟩
  rw [read_operation]
  exact (yields_ofResult hunion).bind h

/-- A spelling is read as the value that it spells. -/
theorem read_yields (h : Spells env k c bs v) : Yields k (read env c) bs v := by
  induction h with
  | int hlength => exact (yields_fixed hlength).bind_nil (yields_pure _)
  | varint h => exact (yields_varint h).bind_nil (yields_pure _)
  | bool => exact (yields_bool _).bind_nil (yields_pure _)
  | fixedBytes hlength => exact (yields_take hlength).bind_nil (yields_pure _)
  | blob hcount => exact (yields_blob hcount).bind_nil (yields_pure _)
  | string hcount => exact (yields_string hcount).bind_nil (yields_pure _)
  | time hlength => exact (yields_fixed hlength).bind_nil (yields_pure _)
  | void => exact yields_pure _
  | vector hcount _ ih => exact yields_vector hcount ih
  | set hcount _ hsorted ih => exact yields_set hcount ih hsorted
  | map hcount _ _ hsorted ihkeys ihvalues => exact yields_map hcount ihkeys ihvalues hsorted
  | absent => exact (yields_byte 0).bind_nil (yields_pure _)
  | present _ ih => exact yields_present ih
  | pair _ _ iha ihb => exact yields_pair iha ihb
  | variant htag hcase _ ih => exact yields_variant htag hcase ih
  | struct _ ih => exact (yields_fields ih).bind_nil (yields_pure _)
  | objectId h => exact (yields_objectId _ _ h).bind_nil (yields_pure _)
  | anyObjectId hlength => exact (yields_fixed hlength).bind_nil (yields_pure _)
  | publicKey hcheck => exact (yields_publicKey _ hcheck).bind_nil (yields_pure _)
  | address hbytes => exact (yields_address _ hbytes).bind_nil (yields_pure _)
  | operation htable htag hcase _ ih => exact yields_operation htable (yields_variant htag hcase ih)

/-! ## Whole values -/

/-- With enough room, a spelling is read to its end. -/
theorem read_eq_of_spells {r : Reader} (h : Spells env k c bs v) (hr : r.Before bs)
    (hroom : k ≤ r.room) : read env c r = (.ok v, r.advance bs.length) := by
  rcases read_yields h r hr with hread | ⟨hlt, _⟩
  · exact hread
  · exact absurd hroom (Nat.not_le.2 hlt)

/-- A reader at the end of its buffer has nothing left. -/
theorem finish_advance_length (b : Bytes) :
    finish ((Reader.ofBytes b).advance b.length) =
      (.ok (), (Reader.ofBytes b).advance b.length) := by
  have hremaining : ((Reader.ofBytes b).advance b.length).remaining = 0 := by
    simp [Reader.remaining, Reader.advance, Reader.ofBytes, Reader.withLimit]
  simp only [finish, hremaining, if_true]

/-- Bytes are deserialized to what they spell. -/
theorem deserialize_eq_ok_iff {b : Bytes} :
    deserialize env c b = .ok v ↔ Spells env defaultMaxDepth c b v := by
  have hbefore : (Reader.ofBytes b).Before b := Reader.before_withLimit defaultMaxDepth b
  constructor
  · intro h
    simp only [deserialize, Action.bind_apply] at h
    rcases hread : read env c (.ofBytes b) with ⟨_ | w, r⟩
    · rw [hread] at h
      cases h
    · have hstart : (Reader.ofBytes b).Before [] := by
        rw [← List.nil_append b] at hbefore
        exact hbefore.left
      obtain ⟨bs, ⟨p, s, hdata, hp⟩, rfl, hspells⟩ :=
        read_sound env c defaultMaxDepth _ w r rfl hstart hread
      -- Nothing stands before what was read.
      have hb : b = bs ++ s := by
        obtain rfl := List.eq_nil_of_length_eq_zero hp
        exact hdata
      rw [hread] at h
      by_cases hremaining : ((Reader.ofBytes b).advance bs.length).remaining = 0
      · simp only [finish, hremaining, if_true] at h
        obtain rfl : w = v := Except.ok.inj h
        have hlength : b.length - (0 + bs.length) = 0 := hremaining
        rw [hb, List.length_append, Nat.zero_add, Nat.add_sub_cancel_left] at hlength
        rw [hb, List.eq_nil_of_length_eq_zero hlength, List.append_nil]
        exact hspells
      · simp only [finish, hremaining, if_false] at h
        cases h
  · intro h
    have hread := read_eq_of_spells h hbefore (Nat.le_refl _)
    have hwhole : (do
        let v ← read env c
        finish
        pure v : Read Value) (.ofBytes b) = (.ok v, (Reader.ofBytes b).advance b.length) := by
      rw [Action.bind_ok hread, Action.bind_ok (finish_advance_length b)]
      rfl
    exact congrArg Prod.fst hwhole

end ChainCodec.Codec
