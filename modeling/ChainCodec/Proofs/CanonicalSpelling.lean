import ChainCodec.Proofs.Canonical
import ChainCodec.Proofs.Grammar

/-! # The encoding is a spelling

    The bytes that `Codec.write` gives for a canonical value spell the value:
    `spells_of_encode`.  What is in order already stays so when it is sorted by
    the bytes that were read. -/

namespace ChainCodec.Codec

variable {env : Registries} {c d : Codec} {k : Nat} {b : Bytes} {v : Value}

theorem flatten_map_eq_flatMap {α : Type} (f : α → Bytes) (as : List α) :
    (as.map f).flatten = as.flatMap f := rfl

/-- Elements that are in order stay where they are. -/
theorem sortUnique_of_ordered_set {parts : List Order.Entry}
    (h : ∀ e ∈ parts, encode env c e.2 = .ok e.1)
    (hordered : Ordered env (.set c) (.array (parts.map Prod.snd))) :
    Order.sortUnique parts = .ok (parts.map Prod.snd) := by
  obtain ⟨keys, hkeys, hascending⟩ := hordered
  have hfst : List.Forall₂ (fun item bs => encode env c item = .ok bs) (parts.map Prod.snd)
      (parts.map Prod.fst) := by
    rw [List.forall₂_map_left_iff, List.forall₂_map_right_iff, List.forall₂_same]
    exact h
  -- The keys of the order are the bytes that were read, since encoding is a
  -- function.
  obtain rfl := rightUnique_encode.forall₂ hkeys hfst
  exact Order.sortUnique_of_ascending hascending

theorem sortUnique_of_ordered_map {parts : List (Order.Entry × Order.Entry)}
    (h : ∀ e ∈ parts, encode env c e.1.2 = .ok e.1.1)
    (hordered : Ordered env (.map c d)
      (.array (parts.map fun e => Value.entry (e.1.2, e.2.2)))) :
    Order.sortUnique (parts.map fun e => (e.1.1, Value.entry (e.1.2, e.2.2))) =
      .ok (parts.map fun e => Value.entry (e.1.2, e.2.2)) := by
  obtain ⟨keys, hkeys, hascending⟩ := hordered
  have hfst : List.Forall₂
      (fun item bs => ∃ p, item = Value.entry p ∧ encode env c p.1 = .ok bs)
      (parts.map fun e => Value.entry (e.1.2, e.2.2)) (parts.map fun e => e.1.1) := by
    rw [List.forall₂_map_left_iff, List.forall₂_map_right_iff, List.forall₂_same]
    exact fun e he => ⟨(e.1.2, e.2.2), rfl, h e he⟩
  obtain rfl := rightUnique_encode_key.forall₂ hkeys hfst
  rw [Order.sortUnique_of_ascending (by rwa [List.map_map]), List.map_map]
  rfl

/-- The bytes of a map are spelled key by key and value by value. -/
theorem spells_map {pairs : List (Value × Value)}
    (hordered : Ordered env (.map c d) (.array (pairs.map Value.entry)))
    (hkeys : ∀ p ∈ pairs, ∀ bs, encode env c p.1 = .ok bs → Spells env k c bs p.1)
    (hvalues : ∀ p ∈ pairs, ∀ bs, encode env d p.2 = .ok bs → Spells env k d bs p.2)
    (hb : encode env (.map c d) (.array (pairs.map Value.entry)) = .ok b) :
    Spells env k (.map c d) b (.array (pairs.map Value.entry)) := by
  obtain ⟨hlength, bytes, hbytes, rfl⟩ := encode_map_eq_ok.1 hb
  -- From pairs of values and pairs of bytes to spelled keys and spelled values.
  obtain ⟨zs, rfl, rfl, hzs⟩ := exists_zip hbytes
  let parts : List (Order.Entry × Order.Entry) := zs.map fun z => ((z.2.1, z.1.1), (z.2.2, z.1.2))
  have hitems : (zs.map Prod.fst).map Value.entry =
      parts.map fun e => Value.entry (e.1.2, e.2.2) := by
    simp [parts]
  have hflat : ((zs.map Prod.snd).flatMap fun q => q.1 ++ q.2) =
      parts.flatMap fun e => e.1.1 ++ e.2.1 := by
    simp [parts, List.flatMap_map]
  have hcount : (zs.map Prod.fst).length = parts.length := by simp [parts]
  have hencode : ∀ e ∈ parts, (e.1.2, e.2.2) ∈ zs.map Prod.fst ∧
      encode env c e.1.2 = .ok e.1.1 ∧ encode env d e.2.2 = .ok e.2.1 := by
    intro e he
    obtain ⟨z, hz, rfl⟩ := List.mem_map.1 he
    exact ⟨List.mem_map_of_mem hz, hzs z hz⟩
  rw [hcount] at hlength ⊢
  rw [hitems] at hordered ⊢
  rw [hflat]
  refine .map (Varint.counts_encode hlength) (fun e he => ?_) (fun e he => ?_)
    (sortUnique_of_ordered_map (fun e he => (hencode e he).2.1) hordered)
  · exact hkeys _ (hencode e he).1 _ (hencode e he).2.1
  · exact hvalues _ (hencode e he).1 _ (hencode e he).2.2

theorem spells_struct {fields : List (String × Codec)} {ignoreUnknown : Bool}
    {record : Record Value} (hdistinct : (fields.map Prod.fst).Nodup)
    (hkeys : Record.keys record = fields.map Prod.fst)
    (h : ∀ f ∈ fields, ∀ bs, encode env f.2 (Value.field record f.1) = .ok bs →
      Spells env k f.2 bs (Value.field record f.1))
    (hb : encode env (.struct fields ignoreUnknown) (.object record) = .ok b) :
    Spells env k (.struct fields ignoreUnknown) b (.object record) := by
  obtain ⟨bytes, hbytes, rfl⟩ := encode_struct_eq_ok.1 hb
  obtain ⟨zs, hfields, rfl, hzs⟩ := exists_zip hbytes
  let parts : List ((String × Codec) × Order.Entry) :=
    zs.map fun z => (z.1, (z.2, Value.field record z.1.1))
  have hschema : parts.map Prod.fst = fields := by
    rw [hfields]
    simp [parts]
  have hflat : (parts.flatMap fun p => p.2.1) = (zs.map Prod.snd).flatten := by
    rw [flatten_map_eq_flatMap]
    simp [parts, List.flatMap_map]
  -- The record has the names of the schema in its order, so rebuilding it from
  -- its fields changes nothing.
  have hself : (parts.map fun p => (p.1.1, p.2.2)) = record := by
    refine Eq.trans ?_ (Value.eq_fields_of_keys hkeys hdistinct).symm
    rw [hfields]
    simp [parts]
  have hrecord : Record.ofList (parts.map fun p => (p.1.1, p.2.2)) = record := by
    have hnodup : (Record.keys record).Nodup := hkeys ▸ hdistinct
    rw [hself, Record.ofList_of_nodup hnodup]
  have hspells : Spells env k (.struct (parts.map Prod.fst) ignoreUnknown)
      (parts.flatMap fun p => p.2.1)
      (.object (Record.ofList (parts.map fun p => (p.1.1, p.2.2)))) := by
    refine .struct fun p hp => ?_
    obtain ⟨z, hz, rfl⟩ := List.mem_map.1 hp
    exact h z.1 (hfields ▸ List.mem_map_of_mem hz) z.2 (hzs z hz)
  rwa [hschema, hflat, hrecord] at hspells

/-- The encoding of a canonical value spells it, if the unions on the way to
    each of its parts may be open and the types of its ids can be told. -/
theorem spells_of_encode (h : Shaped env (fun d w => Ordered env d w ∧ d.TellsType) c v)
    (hk : NestsWithin env k c v) (hb : encode env c v = .ok b) :
    Spells env k c b v := by
  induction h generalizing k b with
  | @int t n _ hlow hhigh =>
    obtain rfl := Except.ok.inj ((encode_int hlow hhigh).symm.trans hb)
    have hspells : Spells env k (.int t)
        (LittleEndian.encode t.width.bytes (t.toBits n)) _ := .int (LittleEndian.length_encode _ _)
    rwa [IntType.wrap_decode_encode hlow hhigh] at hspells
  | varint _ =>
    obtain rfl := Except.ok.inj ((encode_varint _).symm.trans hb)
    exact .varint (Varint.spells_encode _)
  | bool _ =>
    obtain rfl := Except.ok.inj ((encode_bool _).symm.trans hb)
    exact .bool
  | @bytes size bs _ hsize =>
    cases size with
    | none =>
      obtain ⟨hlength, rfl⟩ := encode_blob_eq_ok.1 hb
      exact .blob (Varint.counts_encode hlength)
    | some n =>
      obtain rfl := hsize n rfl
      obtain rfl := Except.ok.inj (encode_fixedBytes.symm.trans hb)
      exact .fixedBytes rfl
  | string _ =>
    obtain ⟨hlength, rfl⟩ := encode_string_eq_ok.1 hb
    exact .string (Varint.counts_encode hlength)
  | @time n _ =>
    obtain rfl := Except.ok.inj ((encode_time n).symm.trans hb)
    have hspells : Spells env k .time (LittleEndian.encode 4 n.toNat) _ :=
      .time (LittleEndian.length_encode _ _)
    have hn : n.toNat % LittleEndian.capacity 4 = n.toNat := Nat.mod_eq_of_lt n.toNat_lt
    rwa [LittleEndian.decode_encode, hn] at hspells
  | void _ =>
    obtain rfl := Except.ok.inj ((encode_void _).symm.trans hb)
    exact .void
  | vector _ _ ih =>
    obtain ⟨hlength, bytes, hbytes, rfl⟩ := encode_vector_eq_ok.1 hb
    obtain ⟨parts, rfl, rfl, hparts⟩ := exists_zip hbytes.flip
    rw [List.length_map] at hlength ⊢
    refine .vector (Varint.counts_encode hlength) fun e he => ?_
    have hmem : e.2 ∈ parts.map Prod.snd := List.mem_map_of_mem he
    exact ih e.2 hmem (hk.child (.item hmem)) (hparts e he)
  | set hP _ ih =>
    obtain ⟨hlength, bytes, hbytes, rfl⟩ := encode_set_eq_ok.1 hb
    obtain ⟨parts, rfl, rfl, hparts⟩ := exists_zip hbytes.flip
    rw [List.length_map] at hlength ⊢
    refine .set (Varint.counts_encode hlength) (fun e he => ?_)
      (sortUnique_of_ordered_set hparts hP.1)
    have hmem : e.2 ∈ parts.map Prod.snd := List.mem_map_of_mem he
    exact ih e.2 hmem (hk.child (.element hmem)) (hparts e he)
  | map hP hpairs _ _ ihkeys ihvalues =>
    subst hpairs
    refine spells_map hP.1 (fun p hp bs hbs => ?_) (fun p hp bs hbs => ?_) hb
    · exact ihkeys p hp (hk.child (.key (List.mem_map_of_mem hp))) hbs
    · exact ihvalues p hp (hk.child (.value (List.mem_map_of_mem hp))) hbs
  | absent _ =>
    obtain rfl := Except.ok.inj (encode_null.symm.trans hb)
    exact .absent
  | present _ hnull _ ih =>
    obtain ⟨bs, hbs, rfl⟩ := (encode_optional_eq_ok hnull).1 hb
    exact .present (ih (hk.child (.present hnull)) hbs)
  | pair _ _ _ iha ihb =>
    obtain ⟨as, bs, has, hbs, rfl⟩ := encode_pair_eq_ok.1 hb
    exact .pair (iha (hk.child .first) has) (ihb (hk.child .second) hbs)
  | variant _ htag hcase _ ih =>
    subst htag
    obtain ⟨bs, hbs, rfl⟩ := (encode_variant_eq_ok hcase).1 hb
    -- The union is open itself, so the bound is not zero.
    obtain ⟨j, rfl⟩ := Nat.exists_eq_add_of_le' (hk.le_of_child (.payload rfl hcase))
    exact .variant (Varint.spells_encode _) hcase (ih (hk.child (.payload rfl hcase)) hbs)
  | struct _ hdistinct hkeys _ ih =>
    refine spells_struct hdistinct hkeys (fun f hf bs hbs => ?_) hb
    exact ih f hf (hk.child (.field hf)) hbs
  | @objectId space type more id hP hspace htype hinst =>
    obtain rfl : more = [] := hP.2
    obtain rfl := Except.ok.inj ((encode_objectId hspace htype hinst).symm.trans hb)
    have hid := ObjectId.eq_of_instance hspace (List.mem_singleton.1 htype) hinst
    have hspells : Spells env k (.objectId space type []) _ _ :=
      .objectId (Varint.spells_encode (UInt32.ofNat id.inst.toNat))
    rwa [← hid] at hspells
  | @anyObjectId id _ hinst =>
    obtain ⟨n, hn⟩ := Check.exists_packed hinst
    obtain rfl := Except.ok.inj ((encode_anyObjectId hn).symm.trans hb)
    have hspells : Spells env k .anyObjectId (LittleEndian.encode 8 n.toNat) _ :=
      .anyObjectId (LittleEndian.length_encode _ _)
    have hmod : n.toNat % LittleEndian.capacity 8 = n.toNat := Nat.mod_eq_of_lt n.toNat_lt
    rwa [LittleEndian.decode_encode, hmod, UInt64.ofNat_toNat, (Check.packed_eq_ok.1 hn).1]
      at hspells
  | publicKey _ hcheck =>
    obtain rfl := Except.ok.inj ((encode_publicKey hcheck).symm.trans hb)
    exact .publicKey hcheck
  | address _ hbytes =>
    obtain rfl := Except.ok.inj ((encode_address hbytes).symm.trans hb)
    exact .address hbytes
  | operation _ htable htag hcase _ ih =>
    subst htag
    obtain ⟨bs, hbs, rfl⟩ := (encode_operation_eq_ok htable hcase).1 hb
    obtain ⟨j, rfl⟩ := Nat.exists_eq_add_of_le' (hk.le_of_child (.operand htable rfl hcase))
    exact .operation htable (Varint.spells_encode _) hcase
      (ih (hk.child (.operand htable rfl hcase)) hbs)

end ChainCodec.Codec
