import ChainCodec.Proofs.Children
import ChainCodec.Proofs.Idempotence
import ChainCodec.Proofs.Reading.Soundness
import ChainCodec.Proofs.Rendering

/-! # What was read can be written and rendered

    Bytes need not be canonical to be read: numbers may be padded, sets and maps
    may come in any order, and null may be marked as present.  Whatever they
    are, the value that is read from them is written again, in no more bytes
    than it was read from, and it is rendered.

    None of the checks that writing makes on its own can fail then, since all
    that they ask for was established by reading: `Spells.shaped`. -/

namespace ChainCodec.Codec

variable {env : Registries} {c : Codec} {k : Nat} {b bs : Bytes} {v : Value}

/-! ## Lengths -/

theorem length_flatMap_le {α β : Type} {R : α → β → Prop} {f : α → Bytes} {g : β → Bytes}
    {as : List α} {bs : List β} (h : List.Forall₂ R as bs)
    (hle : ∀ a ∈ as, ∀ b, R a b → (g b).length ≤ (f a).length) :
    (bs.flatMap g).length ≤ (as.flatMap f).length := by
  induction h with
  | nil => exact Nat.le_refl 0
  | @cons a b as bs hab _ ih =>
    have hhead := hle a (by simp) b hab
    have htail := ih fun a ha => hle a (by simp [ha])
    rw [List.flatMap_cons, List.flatMap_cons, List.length_append, List.length_append]
    omega

/-- A collection is no longer than in any other order, with any other count. -/
theorem length_counted_le {α β : Type} {R : α → β → Prop} {f : α → Bytes} {g : β → Bytes}
    {parts sorted : List α} {bytes : List β} {count : Bytes}
    (hcount : Varint.Counts parts.length count) (hperm : sorted.Perm parts)
    (h : List.Forall₂ R sorted bytes)
    (hle : ∀ e ∈ parts, ∀ b, R e b → (g b).length ≤ (f e).length) :
    (Varint.encode (UInt32.ofNat sorted.length) ++ bytes.flatMap g).length ≤
      (count ++ parts.flatMap f).length := by
  have hparts := length_flatMap_le h fun e he => hle e (hperm.subset he)
  have hflat : (sorted.flatMap f).length = (parts.flatMap f).length :=
    (hperm.flatMap_right f).length_eq
  have hprefix := hcount.length_encode_le
  rw [List.length_append, List.length_append, hperm.length_eq]
  omega

/-- The elements of a set take no more bytes in order than they did out of it. -/
theorem length_encode_set_le {count : Bytes} {parts : List Order.Entry} {items : List Value}
    (hcount : Varint.Counts parts.length count) (hsorted : Order.sortUnique parts = .ok items)
    (hle : ∀ e ∈ parts, ∀ b, encode env c e.2 = .ok b → b.length ≤ e.1.length)
    (hb : encode env (.set c) (.array items) = .ok b) :
    b.length ≤ (count ++ parts.flatMap Prod.fst).length := by
  obtain ⟨_, bytes, hbytes, rfl⟩ := encode_set_eq_ok.1 hb
  obtain ⟨sorted, hperm, -, rfl⟩ := Order.exists_perm_of_sortUnique hsorted
  rw [List.length_map, ← List.flatMap_id]
  exact length_counted_le hcount hperm (List.forall₂_map_left_iff.1 hbytes) hle

/-- So do the entries of a map, where each value follows its key. -/
theorem length_encode_map_le {d : Codec} {count : Bytes} {parts : List (Order.Entry × Order.Entry)}
    {items : List Value} (hcount : Varint.Counts parts.length count)
    (hsorted : Order.sortUnique (parts.map fun e => (e.1.1, Value.entry (e.1.2, e.2.2))) =
      .ok items)
    (hkeys : ∀ e ∈ parts, ∀ b, encode env c e.1.2 = .ok b → b.length ≤ e.1.1.length)
    (hvalues : ∀ e ∈ parts, ∀ b, encode env d e.2.2 = .ok b → b.length ≤ e.2.1.length)
    (hb : encode env (.map c d) (.array items) = .ok b) :
    b.length ≤ (count ++ parts.flatMap fun e => e.1.1 ++ e.2.1).length := by
  obtain ⟨sorted, hperm, -, rfl⟩ := Order.exists_perm_of_sortUnique hsorted
  obtain ⟨parts', hperm', rfl⟩ := exists_perm_of_perm_map hperm
  have hitems : (parts'.map fun e => (e.1.1, Value.entry (e.1.2, e.2.2))).map Prod.snd =
      (parts'.map fun e => (e.1.2, e.2.2)).map Value.entry := by
    simp
  rw [hitems] at hb
  obtain ⟨_, bytes, hbytes, rfl⟩ := encode_map_eq_ok.1 hb
  rw [List.length_map]
  refine length_counted_le hcount hperm' (List.forall₂_map_left_iff.1 hbytes) ?_
  intro e he q hq
  have hkey := hkeys e he _ hq.1
  have hvalue := hvalues e he _ hq.2
  rw [List.length_append, List.length_append]
  exact Nat.add_le_add hkey hvalue

/-- A value is encoded in no more bytes than any that spell it. -/
theorem Spells.length_encode_le (h : Spells env k c bs v) (hnames : DistinctNames env c)
    (hb : encode env c v = .ok b) : b.length ≤ bs.length := by
  induction h generalizing b with
  | @int _ t bs hlength =>
    have hbounds := IntType.wrap_bounds t (LittleEndian.decode bs)
    obtain rfl := Except.ok.inj ((encode_int hbounds.1 hbounds.2).symm.trans hb)
    rw [LittleEndian.length_encode, hlength]
  | varint h =>
    obtain rfl := Except.ok.inj ((encode_varint _).symm.trans hb)
    exact h.length_encode_le
  | bool =>
    obtain rfl := Except.ok.inj ((encode_bool _).symm.trans hb)
    exact Nat.le_refl _
  | fixedBytes hlength =>
    subst hlength
    obtain rfl := Except.ok.inj (encode_fixedBytes.symm.trans hb)
    exact Nat.le_refl _
  | blob hcount =>
    obtain ⟨_, rfl⟩ := encode_blob_eq_ok.1 hb
    rw [List.length_append, List.length_append]
    exact Nat.add_le_add_right hcount.length_encode_le _
  | string hcount =>
    obtain ⟨_, rfl⟩ := encode_string_eq_ok.1 hb
    rw [List.length_append, List.length_append]
    exact Nat.add_le_add_right hcount.length_encode_le _
  | time hlength =>
    obtain ⟨n, hn⟩ := exists_seconds hlength
    rw [hn] at hb
    obtain rfl := Except.ok.inj ((encode_time n).symm.trans hb)
    rw [LittleEndian.length_encode, hlength]
  | void =>
    obtain rfl := Except.ok.inj ((encode_void _).symm.trans hb)
    exact Nat.le_refl _
  | @vector _ c count parts hcount _ ih =>
    obtain ⟨_, bytes, hbytes, rfl⟩ := encode_vector_eq_ok.1 hb
    rw [List.length_map, ← List.flatMap_id]
    refine length_counted_le hcount (.refl _) (List.forall₂_map_left_iff.1 hbytes) ?_
    exact fun e he b hb => ih e he (hnames.inside .vector) hb
  | set hcount _ hsorted ih =>
    exact length_encode_set_le hcount hsorted (fun e he b => ih e he (hnames.inside .set)) hb
  | map hcount _ _ hsorted ihkeys ihvalues =>
    exact length_encode_map_le hcount hsorted (fun e he b => ihkeys e he (hnames.inside .key))
      (fun e he b => ihvalues e he (hnames.inside .value)) hb
  | absent =>
    obtain rfl := Except.ok.inj (encode_null.symm.trans hb)
    exact Nat.le_refl _
  | @present _ _ bs v _ ih =>
    by_cases hnull : v.isNull = true
    · -- Null is written without the value that was marked as present.
      obtain rfl : v = .null := by
        cases v <;> first | rfl | cases hnull
      obtain rfl := Except.ok.inj (encode_null.symm.trans hb)
      exact Nat.succ_le_succ (Nat.zero_le _)
    · obtain ⟨as, has, rfl⟩ := (encode_optional_eq_ok (Bool.eq_false_iff.2 hnull)).1 hb
      exact Nat.succ_le_succ (ih (hnames.inside .optional) has)
  | pair _ _ iha ihb =>
    obtain ⟨as, bs, has, hbs, rfl⟩ := encode_pair_eq_ok.1 hb
    rw [List.length_append, List.length_append]
    exact Nat.add_le_add (iha (hnames.inside .first) has) (ihb (hnames.inside .second) hbs)
  | variant htag hcase _ ih =>
    obtain ⟨as, has, rfl⟩ := (encode_variant_eq_ok hcase).1 hb
    have hpayload := ih (hnames.inside (.case (mem_of_lookup hcase))) has
    rw [List.length_append, List.length_append]
    exact Nat.add_le_add htag.length_encode_le hpayload
  | operation htable htag hcase _ ih =>
    obtain ⟨as, has, rfl⟩ := (encode_operation_eq_ok htable hcase).1 hb
    have hpayload := ih (hnames.inside (.operation htable (mem_of_lookup hcase))) has
    rw [List.length_append, List.length_append]
    exact Nat.add_le_add htag.length_encode_le hpayload
  | @struct _ _ parts _ ih =>
    obtain ⟨bytes, hbytes, rfl⟩ := encode_struct_eq_ok.1 hb
    rw [← List.flatMap_id]
    refine length_flatMap_le (List.forall₂_map_left_iff.1 hbytes) fun p hp b hb => ?_
    rw [field_of_parts (hnames _ (.refl _)) hp] at hb
    exact ih p hp (hnames.inside (.field (List.mem_map_of_mem hp))) hb
  | @objectId _ space type n _ h =>
    have hinst : n.toUInt64.toNat < UInt32.size := by
      rw [UInt32.toNat_toUInt64]
      exact n.toNat_lt
    let id : ObjectId := ⟨space, type, n.toUInt64⟩
    have htype : id.type ∈ [type] := List.mem_singleton_self type
    obtain rfl := Except.ok.inj ((encode_objectId rfl htype hinst).symm.trans hb)
    rw [UInt32.toNat_toUInt64, UInt32.ofNat_toNat]
    exact h.length_encode_le
  | anyObjectId hlength =>
    obtain ⟨n, hn⟩ := Check.exists_packed (ObjectId.inst_ofPacked_lt _)
    obtain rfl := Except.ok.inj ((encode_anyObjectId hn).symm.trans hb)
    rw [LittleEndian.length_encode, hlength]
  | publicKey hcheck =>
    obtain rfl := Except.ok.inj ((encode_publicKey hcheck).symm.trans hb)
    exact Nat.le_refl _
  | address hbytes =>
    obtain rfl := Except.ok.inj ((encode_address hbytes).symm.trans hb)
    exact Nat.le_refl _

/-! ## Writing and rendering -/

theorem Spells.exists_encode (h : Spells env k c bs v) (hnames : DistinctNames env c) :
    ∃ b, encode env c v = .ok b := by
  have hshaped := h.shaped hnames
  exact (exists_encode_iff hshaped).2 (hshaped.imp fun _ _ hfits => hfits.1)

/-- What is encoded is appended to whatever was written before. -/
theorem write_of_encode (hb : encode env c v = .ok b) (w : Writer) :
    write env c v w = (.ok (), w.append b) := by
  obtain ⟨hok, hbytes⟩ := encode_eq_ok_iff.1 hb
  rw [write_appending env c v w, hok, hbytes]

/-- The value that a codec reads is written behind any bytes, in no more bytes
    than it was read from, and it is rendered. -/
theorem reencode_of_read (hnames : DistinctNames env c) {r r' : Reader}
    (hr : r.cursor ≤ r.data.size) (h : read env c r = (.ok v, r')) :
    (∃ b, b.length ≤ r'.cursor - r.cursor ∧ ∀ w, write env c v w = (.ok (), w.append b)) ∧
      ∃ j, render env c v = .ok j := by
  obtain ⟨bs, _, rfl, hspells⟩ :=
    read_sound env c r.room r v r' rfl (Reader.before_nil hr) h
  obtain ⟨b, hb⟩ := hspells.exists_encode hnames
  have hlength : b.length ≤ (r.advance bs.length).cursor - r.cursor := by
    rw [Reader.advance, Nat.add_sub_cancel_left]
    exact hspells.length_encode_le hnames hb
  exact ⟨⟨b, hlength, write_of_encode hb⟩, exists_render (hspells.shaped hnames)⟩

/-- A count with an empty high group, elements out of order, and null that is
    marked as present: five bytes for what has four. -/
theorem reencode_of_read_uncanonical :
    ∃ v, (read .live (record [("ids", .set .varint), ("note", .optional .void)])
        (.ofBytes [0x82, 0, 5, 3, 1])).1 = .ok v ∧
      (∃ b, b.length ≤ 5 ∧ ∀ w,
        write .live (record [("ids", .set .varint), ("note", .optional .void)]) v w =
          (.ok (), w.append b)) ∧
      ∃ j, render .live (record [("ids", .set .varint), ("note", .optional .void)]) v = .ok j := by
  have hnames : DistinctNames .live (record [("ids", .set .varint), ("note", .optional .void)]) :=
    fun _ hd => nodup_of_wellFormed (hd.passes Registries.wellFormed_live rfl)
  have hread : read .live (record [("ids", .set .varint), ("note", .optional .void)])
      (.ofBytes [0x82, 0, 5, 3, 1]) =
        (.ok (.object [("ids", .array [.int 3, .int 5]), ("note", .null)]),
          (Reader.ofBytes [0x82, 0, 5, 3, 1]).advance 5) := by cbv
  obtain ⟨hwrite, hrender⟩ := reencode_of_read hnames (by decide) hread
  exact ⟨_, congrArg Prod.fst hread, hwrite, hrender⟩

end ChainCodec.Codec
