import ChainCodec.Proofs.Appending
import ChainCodec.Proofs.Checks
import ChainCodec.Proofs.Shape
import ChainCodec.Proofs.Unfolding.Write

/-! # The bytes of canonical values

    One lemma for each form of codec says when a canonical value has bytes
    and which: those of its parts, in order, behind a count or a tag.

    A canonical value always has bytes unless something in it is too long to
    be counted in 32 bits: `exists_encode_iff`. -/

namespace ChainCodec.Codec

open Write

variable {env : Registries} {c d : Codec} {v : Value} {b : Bytes}

/-! ## Scalars -/

theorem encode_int {t : IntType} {n : Int} (hlow : t.least ≤ n) (hhigh : n ≤ t.greatest) :
    encode env (.int t) (.int n) = .ok (LittleEndian.encode t.width.bytes (t.toBits n)) := by
  simp only [encode, write, writeWith]
  rw [run_lift_bind, Check.integer_int hlow hhigh]
  exact run_bytes _

theorem encode_varint (n : UInt32) :
    encode env .varint (.int n.toNat) = .ok (Varint.encode n) := by
  simp only [encode, write, writeWith]
  rw [run_lift_bind, Check.integer_uint32]
  exact (run_bytes _).trans (by simp)

theorem encode_bool (b : Bool) : encode env .bool (.bool b) = .ok [if b then 1 else 0] := by
  simp only [encode, write, writeWith]
  rw [run_lift_bind]
  exact run_bytes _

theorem encode_time (n : UInt32) :
    encode env .time (.int n.toNat) = .ok (LittleEndian.encode 4 n.toNat) := by
  simp only [encode, write, writeWith]
  rw [run_lift_bind, Check.integer_uint32]
  exact run_bytes _

theorem encode_void (v : Value) : encode env .void v = .ok [] := by
  simp only [encode, write, writeWith]
  exact run_pure ()

/-- Bytes are written behind their number, which has to fit 32 bits. -/
theorem run_blob_eq_ok {tooLong : Cause} {bs : Bytes} :
    run (Write.blob tooLong bs) = .ok b ↔
      bs.length < UInt32.size ∧ b = Varint.encode (UInt32.ofNat bs.length) ++ bs := by
  unfold Write.blob
  split
  · rename_i hlength
    have hrun : run (do Write.varint (UInt32.ofNat bs.length); Write.bytes bs) =
        .ok (Varint.encode (UInt32.ofNat bs.length) ++ bs) := by
      rw [run_bind (fun _ => appending_bytes bs) fun _ => run_bytes bs, Write.varint, run_bytes]
      rfl
    rw [hrun, Except.ok.injEq]
    constructor
    · rintro rfl
      exact ⟨hlength, rfl⟩
    · intro h
      rcases h with ⟨_, rfl⟩
      rfl
  · rename_i hlength
    rw [run_fail]
    constructor
    · intro h
      cases h
    · intro h
      rcases h with ⟨h, _⟩
      exact absurd h hlength

theorem encode_fixedBytes {bs : Bytes} :
    encode env (.bytes (some bs.length)) (.bytes bs) = .ok bs := by
  simp only [encode, write, writeWith]
  rw [run_lift_bind, Except.bind_ok (show Check.canonicalBytes (.bytes bs) = .ok bs from rfl),
    run_lift_bind, Except.bind_ok (Check.byteCount_eq_ok.2 ⟨rfl, by simp⟩)]
  exact run_bytes _

theorem encode_blob_eq_ok {bs : Bytes} :
    encode env (.bytes none) (.bytes bs) = .ok b ↔
      bs.length < UInt32.size ∧ b = Varint.encode (UInt32.ofNat bs.length) ++ bs := by
  simp only [encode, write, writeWith]
  rw [run_lift_bind, Except.bind_ok (show Check.canonicalBytes (.bytes bs) = .ok bs from rfl),
    run_lift_bind, Except.bind_ok (show Check.byteCount none bs = .ok bs from rfl)]
  exact run_blob_eq_ok

theorem encode_string_eq_ok {s : String} :
    encode env .string (.str s) = .ok b ↔ (Utf8.encode s).length < UInt32.size ∧
      b = Varint.encode (UInt32.ofNat (Utf8.encode s).length) ++ Utf8.encode s := by
  simp only [encode, write, writeWith]
  rw [run_lift_bind, Except.bind_ok (show Check.canonicalString (.str s) = .ok s from rfl)]
  exact run_blob_eq_ok

/-- Only the instance is written. -/
theorem encode_objectId {space type : UInt8} {more : List UInt8} {id : ObjectId}
    (hspace : id.space = space) (htype : id.type ∈ type :: more)
    (hinst : id.inst.toNat < UInt32.size) :
    encode env (.objectId space type more) (.str id.render) =
      .ok (Varint.encode (UInt32.ofNat id.inst.toNat)) := by
  simp only [encode, write, writeWith]
  rw [run_lift_bind, Except.bind_ok (Check.objectId_render hspace htype hinst)]
  exact run_bytes _

theorem encode_anyObjectId {id : ObjectId} {n : UInt64} (h : Check.packed id = .ok n) :
    encode env .anyObjectId (.str id.render) = .ok (LittleEndian.encode 8 n.toNat) := by
  simp only [encode, write, writeWith]
  rw [run_lift_bind, Except.bind_ok (Check.anyObjectId_render id), run_lift_bind,
    Except.bind_ok h]
  exact run_bytes _

theorem encode_publicKey {scheme : KeyScheme} {start : String} {point : Bytes}
    (h : PublicKey.check scheme point = .ok ()) :
    encode env (.publicKey scheme start) (.str (PublicKey.render scheme start point)) =
      .ok point := by
  simp only [encode, write, writeWith]
  rw [run_lift_bind, Except.bind_ok (Check.publicKey_render start h)]
  exact run_bytes _

theorem encode_address {scheme : AddressScheme} {start : String} {bs : Bytes} {a : Address}
    (h : Address.ofBytes scheme bs = .ok a) :
    encode env (.address scheme start) (.str (a.render start)) = .ok bs := by
  simp only [encode, write, writeWith]
  rw [run_lift_bind, Except.bind_ok (Check.address_render start h),
    (Address.bytes_of_ofBytes h).1]
  exact run_bytes _

/-! ## Composites -/

theorem run_count_eq_ok {n : Nat} :
    run (count n) = .ok b ↔ n < UInt32.size ∧ b = Varint.encode (UInt32.ofNat n) := by
  unfold count
  split
  · rename_i hn
    rw [Write.varint, run_bytes, Except.ok.injEq]
    constructor
    · rintro rfl
      exact ⟨hn, rfl⟩
    · intro h
      rcases h with ⟨_, rfl⟩
      rfl
  · rename_i hn
    rw [run_fail]
    constructor
    · intro h
      cases h
    · intro h
      rcases h with ⟨h, _⟩
      exact absurd h hn

/-- A count and then the parts. -/
theorem run_counted_eq_ok {α : Type} {f : Nat → α → Write Unit} {R : α → Bytes → Prop}
    (hf : ∀ i item, (f i item).Appending) (hR : ∀ i item bs, run (f i item) = .ok bs ↔ R item bs)
    {items : List α} :
    run (do
        count items.length
        let _ ← traverseFrom f 0 items
        pure ()) = .ok b ↔
      items.length < UInt32.size ∧ ∃ parts, List.Forall₂ R items parts ∧
        b = Varint.encode (UInt32.ofNat items.length) ++ parts.flatten := by
  -- The results of the steps are dropped, their bytes are kept.
  have hrest : run (do
      let _ ← traverseFrom f 0 items
      pure ()) = (do
        let parts ← traverseFrom (fun i item => run (f i item)) 0 items
        pure parts.flatten) := by
    rw [run_bind_pure, run_traverseFrom hf]
  rw [run_bind (fun _ => (Appending.traverseFrom hf 0 items).bind fun _ => appending_pure ())
    fun _ => hrest]
  simp only [Except.bind_eq_ok, Except.pure_eq_ok, run_count_eq_ok, traverseFrom_eq_ok hR]
  constructor
  · intro h
    rcases h with ⟨_, ⟨hlength, rfl⟩, _, ⟨parts, hparts, rfl⟩, rfl⟩
    exact ⟨hlength, parts, hparts, rfl⟩
  · intro h
    rcases h with ⟨hlength, parts, hparts, rfl⟩
    exact ⟨_, ⟨hlength, rfl⟩, _, ⟨parts, hparts, rfl⟩, rfl⟩

theorem run_within_write {i : Context} {bs : Bytes} :
    run (Write.within i (write env c v)) = .ok bs ↔ encode env c v = .ok bs := by
  rw [run_within, Check.within_eq_ok]
  rfl

theorem encode_vector_eq_ok {items : List Value} :
    encode env (.vector c) (.array items) = .ok b ↔
      items.length < UInt32.size ∧
        ∃ parts, List.Forall₂ (fun item bs => encode env c item = .ok bs) items parts ∧
          b = Varint.encode (UInt32.ofNat items.length) ++ parts.flatten := by
  simp only [encode, write, writeWith]
  rw [run_lift_bind, Except.bind_ok (Check.array_eq_ok.2 rfl)]
  exact run_counted_eq_ok (fun i item => (write_appending env c item).within _)
    fun i item bs => run_within_write

theorem encode_set_eq_ok {items : List Value} :
    encode env (.set c) (.array items) = .ok b ↔
      items.length < UInt32.size ∧
        ∃ parts, List.Forall₂ (fun item bs => encode env c item = .ok bs) items parts ∧
          b = Varint.encode (UInt32.ofNat items.length) ++ parts.flatten := by
  simp only [encode, write, writeWith]
  rw [run_lift_bind, Except.bind_ok (Check.array_eq_ok.2 rfl)]
  exact run_counted_eq_ok (fun i item => (write_appending env c item).within _)
    fun i item bs => run_within_write

/-- A part and then another one. -/
theorem run_pair_eq_ok {i j : Context} {a x : Value} :
    run (do
        Write.within i (write env c a)
        Write.within j (write env d x)) = .ok b ↔
      ∃ as bs, encode env c a = .ok as ∧ encode env d x = .ok bs ∧ b = as ++ bs := by
  rw [run_bind (fun _ => (write_appending env d x).within _) fun _ => rfl]
  simp only [Except.bind_eq_ok, Except.pure_eq_ok, run_within_write]
  constructor
  · intro h
    rcases h with ⟨as, has, bs, hbs, rfl⟩
    exact ⟨as, bs, has, hbs, rfl⟩
  · intro h
    rcases h with ⟨as, bs, has, hbs, rfl⟩
    exact ⟨as, has, bs, hbs, rfl⟩

/-- The number of entries, and then each key with its value behind it. -/
theorem encode_map_eq_ok {pairs : List (Value × Value)} :
    encode env (.map c d) (.array (pairs.map Value.entry)) = .ok b ↔
      pairs.length < UInt32.size ∧
        ∃ parts : List (Bytes × Bytes),
          List.Forall₂ (fun p q => encode env c p.1 = .ok q.1 ∧ encode env d p.2 = .ok q.2)
            pairs parts ∧
          b = Varint.encode (UInt32.ofNat pairs.length) ++ parts.flatMap fun q => q.1 ++ q.2 := by
  have hstep : ∀ (i : Nat) (item : Value) (bs : Bytes), run (
        (liftM (Check.canonicalEntry i item) : Write (Value × Value)) >>= fun p => do
          Write.within (.key i) (write env c p.1)
          Write.within (.value i) (write env d p.2)) = .ok bs ↔
      ∃ p, item = Value.entry p ∧
        ∃ q : Bytes × Bytes, (encode env c p.1 = .ok q.1 ∧ encode env d p.2 = .ok q.2) ∧
          bs = q.1 ++ q.2 := by
    intro i item bs
    rw [run_lift_bind]
    simp only [Except.bind_eq_ok, Check.canonicalEntry_eq_ok, run_pair_eq_ok]
    constructor
    · intro h
      rcases h with ⟨p, hp, as, bs, has, hbs, rfl⟩
      exact ⟨p, Value.asPair?_eq_some.1 hp, (as, bs), ⟨has, hbs⟩, rfl⟩
    · intro h
      rcases h with ⟨p, rfl, q, ⟨has, hbs⟩, rfl⟩
      exact ⟨p, Value.asPair?_entry p, q.1, q.2, has, hbs, rfl⟩
  simp only [encode, write, writeWith]
  rw [run_lift_bind, Except.bind_ok (Check.canonicalEntries_eq_ok.2 rfl)]
  refine (run_counted_eq_ok (fun i item => ?_) hstep).trans ?_
  · exact (appending_lift _).bind fun p =>
      ((write_appending env c p.1).within _).bind fun _ => (write_appending env d p.2).within _
  · -- What is left is to tell the bytes of a key from those of its value.
    rw [List.length_map]
    refine and_congr_right fun _ => ?_
    constructor
    · intro h
      rcases h with ⟨parts, hparts, rfl⟩
      rw [List.forall₂_map_left_iff] at hparts
      obtain ⟨qs, hqs, rfl⟩ := exists_forall₂_map (hparts.imp fun p bs h => by
        obtain ⟨p', hp, h⟩ := h
        rwa [← Value.entry_injective hp] at h)
      exact ⟨qs, hqs, by rw [List.flatMap]⟩
    · intro h
      rcases h with ⟨parts, hparts, rfl⟩
      refine ⟨parts.map fun q => q.1 ++ q.2, ?_, by rw [List.flatMap]⟩
      rw [List.forall₂_map_left_iff, List.forall₂_map_right_iff]
      exact hparts.imp fun p q h => ⟨p, rfl, q, h, rfl⟩

theorem encode_null : encode env (.optional c) .null = .ok [0] := by
  simp only [encode, write, writeWith, Value.isNull, if_true]
  exact run_bytes _

theorem encode_optional_eq_ok (hnull : v.isNull = false) :
    encode env (.optional c) v = .ok b ↔ ∃ bs, encode env c v = .ok bs ∧ b = 1 :: bs := by
  -- The mark that something is there, and then its own bytes.
  have hrun : run (do byte 1; write env c v) = (do
      let as ← run (byte 1)
      let bs ← encode env c v
      pure (as ++ bs)) := run_bind (fun _ => write_appending env c v) fun _ => rfl
  simp only [encode, write, writeWith, hnull] at hrun ⊢
  refine (Eq.congr_left hrun).trans ?_
  rw [byte, run_bytes]
  simp only [Except.bind_eq_ok, Except.pure_eq_ok, Except.ok.injEq]
  constructor
  · intro h
    rcases h with ⟨_, rfl, bs, hbs, rfl⟩
    exact ⟨bs, hbs, rfl⟩
  · intro h
    rcases h with ⟨bs, hbs, rfl⟩
    exact ⟨_, rfl, bs, hbs, rfl⟩

theorem encode_pair_eq_ok {a x : Value} :
    encode env (.pair c d) (.array [a, x]) = .ok b ↔
      ∃ as bs, encode env c a = .ok as ∧ encode env d x = .ok bs ∧ b = as ++ bs := by
  simp only [encode, write, writeWith]
  rw [run_lift_bind, Except.bind_ok (Check.pair_eq_ok.2 rfl)]
  exact run_pair_eq_ok

theorem writeCase_of_lookup {op : WriteOperation} {label : String} {tag : UInt32}
    {cases : CaseTable} {payload : Value} (h : cases.lookup tag = some c) :
    writeCase op label tag cases payload = (do
      Write.varint tag
      Write.within (.variant label tag) (writeWith op c payload)) := by
  refine search_of_lookup (fun cases => writeCase op label tag cases payload)
    (fun c => do
      Write.varint tag
      Write.within (.variant label tag) (writeWith op c payload)) (fun t d rest => ?_) h
  rw [writeCase]

theorem encode_variant_eq_ok {label : String} {cases : CaseTable} {tag : UInt32} {payload : Value}
    (hcase : cases.lookup tag = some c) :
    encode env (.variant label cases) (.array [.int tag.toNat, payload]) = .ok b ↔
      ∃ bs, encode env c payload = .ok bs ∧ b = Varint.encode tag ++ bs := by
  have hrun : encode env (.variant label cases) (.array [.int tag.toNat, payload]) = run (do
      Write.varint tag
      Write.within (.variant label tag) (write env c payload)) := by
    simp only [encode, write, writeWith]
    rw [run_lift_bind, Except.bind_ok (Check.tagged_eq_ok.2 rfl), run_lift_bind,
      Except.bind_ok (Check.tag_uint32 tag), writeCase_of_lookup hcase]
  rw [hrun, run_bind (fun _ => (write_appending env c payload).within _) fun _ => rfl,
    Write.varint, run_bytes]
  simp only [Except.bind_eq_ok, Except.pure_eq_ok, Except.ok.injEq]
  constructor
  · intro h
    rcases h with ⟨_, rfl, bs, hbs, rfl⟩
    exact ⟨bs, run_within_write.1 hbs, rfl⟩
  · intro h
    rcases h with ⟨bs, hbs, rfl⟩
    exact ⟨_, rfl, bs, run_within_write.2 hbs, rfl⟩

/-- An operation is written as the union of the table that is found for it. -/
theorem encode_operation_eq_ok {link : OperationLink} {table : CaseTable} {tag : UInt32}
    {payload : Value} (htable : (env link.registry).table = .ok table)
    (hcase : table.lookup tag = some c) :
    encode env (.operation link) (.array [.int tag.toNat, payload]) = .ok b ↔
      ∃ bs, encode env c payload = .ok bs ∧ b = Varint.encode tag ++ bs := by
  have hunion := Registries.unionOf_eq_ok.2 ⟨table, htable, rfl⟩
  rw [encode, write_operation, run_lift_bind, Except.bind_ok hunion]
  exact encode_variant_eq_ok hcase

/-- The fields one behind the other, in the order of the schema. -/
theorem encode_struct_eq_ok {fields : List (String × Codec)} {ignoreUnknown : Bool}
    {record : Record Value} :
    encode env (.struct fields ignoreUnknown) (.object record) = .ok b ↔
      ∃ parts, List.Forall₂ (fun f bs => encode env f.2 (Value.field record f.1) = .ok bs)
        fields parts ∧ b = parts.flatten := by
  simp only [encode, write, writeWith]
  rw [run_lift_bind, Except.bind_ok (Check.object_eq_ok.2 rfl)]
  -- The record stays whole while the induction goes through its schema.
  induction fields generalizing b with
  | nil =>
    simp only [writeFields, run_pure, Except.ok.injEq, List.forall₂_nil_left_iff]
    constructor
    · rintro rfl
      exact ⟨[], rfl, rfl⟩
    · intro h
      rcases h with ⟨_, rfl, rfl⟩
      rfl
  | cons f rest ih =>
    obtain ⟨name, c⟩ := f
    simp only [writeFields]
    rw [run_bind (fun _ => writeFields_appending (fun link v =>
      writeOperation_appending env (v.arrayDepth + 1) link v) rest record) fun _ => rfl]
    simp only [Except.bind_eq_ok, Except.pure_eq_ok, ih, List.forall₂_cons_left_iff]
    constructor
    · intro h
      rcases h with ⟨as, has, _, ⟨parts, hparts, rfl⟩, rfl⟩
      exact ⟨as :: parts, ⟨as, parts, run_within_write.1 has, hparts, rfl⟩, rfl⟩
    · intro h
      rcases h with ⟨_, ⟨as, parts, has, hparts, rfl⟩, rfl⟩
      exact ⟨as, run_within_write.2 has, _, ⟨parts, hparts, rfl⟩, rfl⟩

/-! ## What has bytes -/

/-- A string, a blob or a collection whose length fits 32 bits. -/
def Fits : Codec → Value → Prop
  | .bytes none, .bytes bs => bs.length < UInt32.size
  | .string, .str s => (Utf8.encode s).length < UInt32.size
  | .vector _, .array items | .set _, .array items | .map _ _, .array items =>
      items.length < UInt32.size
  | _, _ => True

/-- There are bytes behind something if there are bytes at all. -/
theorem exists_bytes_iff {p : Bytes → Prop} {f : Bytes → Bytes} :
    (∃ b bs, p bs ∧ b = f bs) ↔ ∃ bs, p bs := by
  constructor
  · intro h
    rcases h with ⟨_, bs, hbs, _⟩
    exact ⟨bs, hbs⟩
  · intro h
    rcases h with ⟨bs, hbs⟩
    exact ⟨_, bs, hbs, rfl⟩

/-- Counted parts have bytes if each of them has and they can be counted. -/
theorem exists_counted_iff {α β : Type} {R : α → β → Prop} {items : List α}
    {bytes : List β → Bytes} :
    (∃ b, items.length < UInt32.size ∧
        ∃ parts, List.Forall₂ R items parts ∧ b = bytes parts) ↔
      items.length < UInt32.size ∧ ∀ item ∈ items, ∃ part, R item part := by
  constructor
  · intro h
    rcases h with ⟨_, hlength, parts, hparts, _⟩
    refine ⟨hlength, fun item hitem => ?_⟩
    obtain ⟨part, _, hpart⟩ := forall₂_mem_left hparts hitem
    exact ⟨part, hpart⟩
  · intro h
    rcases h with ⟨hlength, hitems⟩
    obtain ⟨parts, hparts⟩ := exists_forall₂ hitems
    exact ⟨_, hlength, parts, hparts, rfl⟩

theorem exists_encode_vector_iff {items : List Value} :
    (∃ b, encode env (.vector c) (.array items) = .ok b) ↔
      items.length < UInt32.size ∧ ∀ item ∈ items, ∃ bs, encode env c item = .ok bs :=
  (exists_congr fun _ => encode_vector_eq_ok).trans exists_counted_iff

theorem exists_encode_set_iff {items : List Value} :
    (∃ b, encode env (.set c) (.array items) = .ok b) ↔
      items.length < UInt32.size ∧ ∀ item ∈ items, ∃ bs, encode env c item = .ok bs :=
  (exists_congr fun _ => encode_set_eq_ok).trans exists_counted_iff

theorem exists_encode_map_iff {pairs : List (Value × Value)} :
    (∃ b, encode env (.map c d) (.array (pairs.map Value.entry)) = .ok b) ↔
      pairs.length < UInt32.size ∧
        ∀ p ∈ pairs, (∃ as, encode env c p.1 = .ok as) ∧ ∃ bs, encode env d p.2 = .ok bs := by
  refine ((exists_congr fun _ => encode_map_eq_ok).trans exists_counted_iff).trans ?_
  simp only [Prod.exists, exists_and_left, exists_and_right]

theorem exists_encode_pair_iff {a x : Value} :
    (∃ b, encode env (.pair c d) (.array [a, x]) = .ok b) ↔
      (∃ as, encode env c a = .ok as) ∧ ∃ bs, encode env d x = .ok bs := by
  constructor
  · intro h
    rcases h with ⟨b, hb⟩
    obtain ⟨as, bs, has, hbs, _⟩ := encode_pair_eq_ok.1 hb
    exact ⟨⟨as, has⟩, bs, hbs⟩
  · intro h
    rcases h with ⟨⟨as, has⟩, bs, hbs⟩
    exact ⟨_, encode_pair_eq_ok.2 ⟨as, bs, has, hbs, rfl⟩⟩

theorem exists_encode_struct_iff {fields : List (String × Codec)} {ignoreUnknown : Bool}
    {record : Record Value} :
    (∃ b, encode env (.struct fields ignoreUnknown) (.object record) = .ok b) ↔
      ∀ f ∈ fields, ∃ bs, encode env f.2 (Value.field record f.1) = .ok bs := by
  constructor
  · intro h
    rcases h with ⟨b, hb⟩
    obtain ⟨parts, hparts, _⟩ := encode_struct_eq_ok.1 hb
    intro f hf
    obtain ⟨bs, _, hbs⟩ := forall₂_mem_left hparts hf
    exact ⟨bs, hbs⟩
  · intro h
    obtain ⟨parts, hparts⟩ := exists_forall₂ h
    exact ⟨_, encode_struct_eq_ok.2 ⟨parts, hparts, rfl⟩⟩

/-- A value has bytes if nothing in it is too long. -/
theorem exists_encode_iff {P : Codec → Value → Prop} (h : Shaped env P c v) :
    (∃ b, encode env c v = .ok b) ↔ Shaped env Fits c v := by
  induction h with
  | int _ hlow hhigh =>
    exact ⟨fun _ => .int trivial hlow hhigh, fun _ => ⟨_, encode_int hlow hhigh⟩⟩
  | varint _ => exact ⟨fun _ => .varint trivial, fun _ => ⟨_, encode_varint _⟩⟩
  | bool _ => exact ⟨fun _ => .bool trivial, fun _ => ⟨_, encode_bool _⟩⟩
  | @bytes size bs _ hsize =>
    -- A blob of a size that is known has no length in front of it.
    cases size with
    | none =>
      constructor
      · intro h
        rcases h with ⟨b, hb⟩
        exact .bytes (encode_blob_eq_ok.1 hb).1 hsize
      · intro h
        exact ⟨_, encode_blob_eq_ok.2 ⟨h.holds, rfl⟩⟩
    | some n =>
      obtain rfl := hsize n rfl
      exact ⟨fun _ => .bytes trivial hsize, fun _ => ⟨_, encode_fixedBytes⟩⟩
  | string _ =>
    constructor
    · intro h
      rcases h with ⟨b, hb⟩
      exact .string (encode_string_eq_ok.1 hb).1
    · intro h
      exact ⟨_, encode_string_eq_ok.2 ⟨h.holds, rfl⟩⟩
  | time _ => exact ⟨fun _ => .time trivial, fun _ => ⟨_, encode_time _⟩⟩
  | void _ => exact ⟨fun _ => .void trivial, fun _ => ⟨_, encode_void _⟩⟩
  | vector _ _ ih =>
    rw [exists_encode_vector_iff]
    constructor
    · intro h
      exact .vector h.1 fun item hitem => (ih item hitem).1 (h.2 item hitem)
    · intro h
      exact ⟨h.holds, fun item hitem => (ih item hitem).2 (h.child (.item hitem))⟩
  | set _ _ ih =>
    rw [exists_encode_set_iff]
    constructor
    · intro h
      exact .set h.1 fun item hitem => (ih item hitem).1 (h.2 item hitem)
    · intro h
      exact ⟨h.holds, fun item hitem => (ih item hitem).2 (h.child (.element hitem))⟩
  | @map c d items pairs _ hpairs _ _ ihkeys ihvalues =>
    subst hpairs
    rw [exists_encode_map_iff]
    have hfits : Fits (.map c d) (.array (pairs.map Value.entry)) ↔
        pairs.length < UInt32.size := by
      simp only [Fits, List.length_map]
    constructor
    · intro h
      exact .map (hfits.2 h.1) rfl (fun p hp => (ihkeys p hp).1 (h.2 p hp).1)
        fun p hp => (ihvalues p hp).1 (h.2 p hp).2
    · intro h
      refine ⟨hfits.1 h.holds, fun p hp => ?_⟩
      have hmem := List.mem_map_of_mem (f := Value.entry) hp
      exact ⟨(ihkeys p hp).2 (h.child (.key hmem)), (ihvalues p hp).2 (h.child (.value hmem))⟩
  | absent _ => exact ⟨fun _ => .absent trivial, fun _ => ⟨_, encode_null⟩⟩
  | present _ hnull _ ih =>
    rw [exists_congr fun _ => encode_optional_eq_ok hnull, exists_bytes_iff, ih]
    exact ⟨.present trivial hnull, fun h => h.child (.present hnull)⟩
  | pair _ _ _ iha ihb =>
    rw [exists_encode_pair_iff, iha, ihb]
    exact ⟨fun h => .pair trivial h.1 h.2, fun h => ⟨h.child .first, h.child .second⟩⟩
  | variant _ htag hcase _ ih =>
    subst htag
    rw [exists_congr fun _ => encode_variant_eq_ok hcase, exists_bytes_iff, ih]
    exact ⟨.variant trivial rfl hcase, fun h => h.child (.payload rfl hcase)⟩
  | struct _ hdistinct hkeys _ ih =>
    rw [exists_encode_struct_iff]
    constructor
    · intro h
      exact .struct trivial hdistinct hkeys fun f hf => (ih f hf).1 (h f hf)
    · intro h f hf
      exact (ih f hf).2 (h.child (.field hf))
  | objectId _ hspace htype hinst =>
    exact ⟨fun _ => .objectId trivial hspace htype hinst,
      fun _ => ⟨_, encode_objectId hspace htype hinst⟩⟩
  | anyObjectId _ hinst =>
    obtain ⟨n, hn⟩ := Check.exists_packed hinst
    exact ⟨fun _ => .anyObjectId trivial hinst, fun _ => ⟨_, encode_anyObjectId hn⟩⟩
  | publicKey _ hcheck =>
    exact ⟨fun _ => .publicKey trivial hcheck, fun _ => ⟨_, encode_publicKey hcheck⟩⟩
  | address _ hbytes =>
    exact ⟨fun _ => .address trivial hbytes, fun _ => ⟨_, encode_address hbytes⟩⟩
  | operation _ htable htag hcase _ ih =>
    subst htag
    rw [exists_congr fun _ => encode_operation_eq_ok htable hcase, exists_bytes_iff, ih]
    exact ⟨.operation trivial htable rfl hcase, fun h => h.child (.operand htable rfl hcase)⟩

end ChainCodec.Codec
