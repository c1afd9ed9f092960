import ChainCodec.Proofs.Encoding
import ChainCodec.Proofs.Integers
import ChainCodec.Proofs.Order
import ChainCodec.Proofs.Records
import ChainCodec.Proofs.Shape
import ChainCodec.Proofs.Varint

/-! # The wire format

    `Spells` says which bytes stand for which value, with one rule for each
    form of codec.  Elements of sets and keys of maps may come in any order
    and numbers may be padded, so a value can have several spellings.

    A spelling is indexed by a bound on the unions that are open at one time
    while it is read. -/

namespace ChainCodec.Codec

/-! ## Spellings -/

/-- The bytes spell the value, and no more than so many unions have to be open
    at one time. -/
inductive Spells (env : Registries) : Nat → Codec → Bytes → Value → Prop
  | int {k : Nat} {t : IntType} {bs : Bytes} (hlength : bs.length = t.width.bytes) :
      Spells env k (.int t) bs (.int (t.wrap (LittleEndian.decode bs)))
  | varint {k : Nat} {n : UInt32} {bs : Bytes} (h : Varint.Spells n bs) :
      Spells env k .varint bs (.int n.toNat)
  | bool {k : Nat} {b : Bool} : Spells env k .bool [if b then 1 else 0] (.bool b)
  | fixedBytes {k n : Nat} {bs : Bytes} (hlength : bs.length = n) :
      Spells env k (.bytes (some n)) bs (.bytes bs)
  | blob {k : Nat} {count bs : Bytes} (hcount : Varint.Counts bs.length count) :
      Spells env k (.bytes none) (count ++ bs) (.bytes bs)
  | string {k : Nat} {count : Bytes} {s : String}
      (hcount : Varint.Counts (Utf8.encode s).length count) :
      Spells env k .string (count ++ Utf8.encode s) (.str s)
  | time {k : Nat} {bs : Bytes} (hlength : bs.length = 4) :
      Spells env k .time bs (.int (LittleEndian.decode bs))
  | void {k : Nat} : Spells env k .void [] .null
  | vector {k : Nat} {c : Codec} {count : Bytes} {parts : List Order.Entry}
      (hcount : Varint.Counts parts.length count) (h : ∀ e ∈ parts, Spells env k c e.1 e.2) :
      Spells env k (.vector c) (count ++ parts.flatMap Prod.fst) (.array (parts.map Prod.snd))
  | set {k : Nat} {c : Codec} {count : Bytes} {parts : List Order.Entry} {items : List Value}
      (hcount : Varint.Counts parts.length count) (h : ∀ e ∈ parts, Spells env k c e.1 e.2)
      (hsorted : Order.sortUnique parts = .ok items) :
      Spells env k (.set c) (count ++ parts.flatMap Prod.fst) (.array items)
  | map {k : Nat} {c d : Codec} {count : Bytes} {parts : List (Order.Entry × Order.Entry)}
      {items : List Value} (hcount : Varint.Counts parts.length count)
      (hkeys : ∀ e ∈ parts, Spells env k c e.1.1 e.1.2)
      (hvalues : ∀ e ∈ parts, Spells env k d e.2.1 e.2.2)
      (hsorted : Order.sortUnique (parts.map fun e => (e.1.1, Value.entry (e.1.2, e.2.2))) =
        .ok items) :
      Spells env k (.map c d) (count ++ parts.flatMap fun e => e.1.1 ++ e.2.1) (.array items)
  | absent {k : Nat} {c : Codec} : Spells env k (.optional c) [0] .null
  | present {k : Nat} {c : Codec} {bs : Bytes} {v : Value} (h : Spells env k c bs v) :
      Spells env k (.optional c) (1 :: bs) v
  | pair {k : Nat} {c d : Codec} {as bs : Bytes} {a b : Value} (ha : Spells env k c as a)
      (hb : Spells env k d bs b) : Spells env k (.pair c d) (as ++ bs) (.array [a, b])
  | variant {k : Nat} {label : String} {cases : CaseTable} {tag : UInt32} {c : Codec}
      {as bs : Bytes} {payload : Value} (htag : Varint.Spells tag as)
      (hcase : cases.lookup tag = some c) (h : Spells env k c bs payload) :
      Spells env (k + 1) (.variant label cases) (as ++ bs) (.array [.int tag.toNat, payload])
  | struct {k : Nat} {ignoreUnknown : Bool} {parts : List ((String × Codec) × Order.Entry)}
      (h : ∀ p ∈ parts, Spells env k p.1.2 p.2.1 p.2.2) :
      Spells env k (.struct (parts.map Prod.fst) ignoreUnknown) (parts.flatMap fun p => p.2.1)
        (.object (Record.ofList (parts.map fun p => (p.1.1, p.2.2))))
  | objectId {k : Nat} {space type : UInt8} {n : UInt32} {bs : Bytes} (h : Varint.Spells n bs) :
      Spells env k (.objectId space type []) bs
        (.str (ObjectId.render ⟨space, type, n.toUInt64⟩))
  | anyObjectId {k : Nat} {bs : Bytes} (hlength : bs.length = 8) :
      Spells env k .anyObjectId bs
        (.str (ObjectId.ofPacked (UInt64.ofNat (LittleEndian.decode bs))).render)
  | publicKey {k : Nat} {scheme : KeyScheme} {start : String} {point : Bytes}
      (hcheck : PublicKey.check scheme point = .ok ()) :
      Spells env k (.publicKey scheme start) point (.str (PublicKey.render scheme start point))
  | address {k : Nat} {scheme : AddressScheme} {start : String} {bs : Bytes} {a : Address}
      (hbytes : Address.ofBytes scheme bs = .ok a) :
      Spells env k (.address scheme start) bs (.str (a.render start))
  | operation {k : Nat} {link : OperationLink} {table : CaseTable} {tag : UInt32} {c : Codec}
      {as bs : Bytes} {payload : Value} (htable : (env link.registry).table = .ok table)
      (htag : Varint.Spells tag as) (hcase : table.lookup tag = some c)
      (h : Spells env k c bs payload) :
      Spells env (k + 1) (.operation link) (as ++ bs) (.array [.int tag.toNat, payload])

/-! ## What is spelled -/

section Spells

variable {env : Registries} {c d : Codec} {k : Nat} {bs : Bytes} {v w : Value}

/-- The fields of a spelled record. -/
theorem field_of_parts {parts : List ((String × Codec) × Order.Entry)}
    (hdistinct : ((parts.map Prod.fst).map Prod.fst).Nodup)
    {p : (String × Codec) × Order.Entry} (hp : p ∈ parts) :
    Value.field (Record.ofList (parts.map fun p => (p.1.1, p.2.2))) p.1.1 = p.2.2 := by
  have hkeys : ((parts.map fun p => (p.1.1, p.2.2)).map Prod.fst).Nodup := by
    rw [List.map_map] at hdistinct ⊢
    exact hdistinct
  have hmem : (p.1.1, p.2.2) ∈ parts.map fun p => (p.1.1, p.2.2) := List.mem_map_of_mem hp
  rw [Record.ofList_of_nodup hkeys]
  exact Value.field_of_mem hkeys hmem

/-- Parts of what is spelled are spelled, with room for the unions that are
    opened on the way. -/
theorem Spells.child {j : Nat} (h : Spells env k c bs v) (hdistinct : c.fieldNames.Nodup)
    (hw : Child env c v j d w) : ∃ i as, Spells env i d as w ∧ j + i = k := by
  cases hw with
  | item hmem =>
    cases h with
    | vector _ h =>
      obtain ⟨e, he, rfl⟩ := List.mem_map.1 hmem
      exact ⟨k, e.1, h e he, Nat.zero_add k⟩
  | element hmem =>
    cases h with
    | set _ h hsorted =>
      -- Elements are moved by sorting, each with the bytes that spell it.
      obtain ⟨key, he⟩ := Order.mem_of_sortUnique hsorted hmem
      exact ⟨k, key, h _ he, Nat.zero_add k⟩
  | key hmem =>
    cases h with
    | map _ hkeys _ hsorted =>
      obtain ⟨_, hentry⟩ := Order.mem_of_sortUnique hsorted hmem
      obtain ⟨e, he, hp⟩ := List.mem_map.1 hentry
      obtain rfl := Value.entry_injective (congrArg Prod.snd hp)
      exact ⟨k, e.1.1, hkeys e he, Nat.zero_add k⟩
  | value hmem =>
    cases h with
    | map _ _ hvalues hsorted =>
      obtain ⟨_, hentry⟩ := Order.mem_of_sortUnique hsorted hmem
      obtain ⟨e, he, hp⟩ := List.mem_map.1 hentry
      obtain rfl := Value.entry_injective (congrArg Prod.snd hp)
      exact ⟨k, e.2.1, hvalues e he, Nat.zero_add k⟩
  | present hnull =>
    cases h with
    | absent => cases hnull
    | present h => exact ⟨k, _, h, Nat.zero_add k⟩
  | first =>
    cases h with
    | pair ha _ => exact ⟨k, _, ha, Nat.zero_add k⟩
  | second =>
    cases h with
    | pair _ hb => exact ⟨k, _, hb, Nat.zero_add k⟩
  | payload htag hcase =>
    cases h with
    | variant _ hcase' h =>
      obtain rfl := UInt32.toNat_inj.1 (Int.ofNat.inj htag)
      obtain rfl := Option.some.inj (hcase.symm.trans hcase')
      exact ⟨_, _, h, Nat.add_comm 1 _⟩
  | field hmem =>
    cases h with
    | struct h =>
      obtain ⟨p, hp, rfl⟩ := List.mem_map.1 hmem
      rw [field_of_parts hdistinct hp]
      exact ⟨k, p.2.1, h p hp, Nat.zero_add k⟩
  | operand htable htag hcase =>
    cases h with
    | operation htable' _ hcase' h =>
      -- The registry does not change while a value is read.
      obtain rfl := Except.ok.inj (htable.symm.trans htable')
      obtain rfl := UInt32.toNat_inj.1 (Int.ofNat.inj htag)
      obtain rfl := Option.some.inj (hcase.symm.trans hcase')
      exact ⟨_, _, h, Nat.add_comm 1 _⟩

/-- No part lies behind more unions than may be open. -/
theorem Spells.nestsWithin (h : Spells env k c bs v) (hnames : DistinctNames env c) :
    NestsWithin env k c v := by
  intro n d w hw
  -- Down the path, each union takes one from the bound.
  induction hw generalizing k bs with
  | self => exact Nat.zero_le k
  | step hchild _ ih =>
    obtain ⟨i, as, hspells, rfl⟩ := h.child (hnames _ (.refl _)) hchild
    exact Nat.add_le_add_left (ih hspells (hnames.inside hchild.inside)) _

theorem exists_seconds {bs : Bytes} (h : bs.length = 4) :
    ∃ n : UInt32, LittleEndian.decode bs = n.toNat := by
  have hlt : LittleEndian.decode bs < UInt32.size := by
    have := LittleEndian.decode_lt bs
    rwa [h] at this
  exact ⟨UInt32.ofNat (LittleEndian.decode bs), (UInt32.toNat_ofNat_of_lt' hlt).symm⟩

/-- What is spelled has the shape of canonical values, but sets and maps in it
    need not be in the order of their encodings. -/
theorem Spells.shaped (h : Spells env k c bs v) (hnames : DistinctNames env c) :
    Shaped env (fun d w => Fits d w ∧ d.TellsType) c v := by
  induction h with
  | int _ => exact .int ⟨trivial, trivial⟩ (IntType.wrap_bounds _ _).1 (IntType.wrap_bounds _ _).2
  | varint _ => exact .varint ⟨trivial, trivial⟩
  | bool => exact .bool ⟨trivial, trivial⟩
  | fixedBytes hlength => exact .bytes ⟨trivial, trivial⟩ (by rintro _ ⟨⟩; exact hlength)
  | blob hcount => exact .bytes ⟨hcount.lt, trivial⟩ (by rintro _ ⟨⟩)
  | string hcount => exact .string ⟨hcount.lt, trivial⟩
  | time hlength =>
    obtain ⟨n, hn⟩ := exists_seconds hlength
    rw [hn]
    exact .time ⟨trivial, trivial⟩
  | void => exact .void ⟨trivial, trivial⟩
  | vector hcount _ ih =>
    refine .vector ⟨?_, trivial⟩ fun item hitem => ?_
    · simp only [Fits, List.length_map]
      exact hcount.lt
    · obtain ⟨e, he, rfl⟩ := List.mem_map.1 hitem
      exact ih e he (hnames.inside .vector)
  | set hcount _ hsorted ih =>
    refine .set ⟨?_, trivial⟩ fun item hitem => ?_
    · simp only [Fits, Order.length_of_sortUnique hsorted]
      exact hcount.lt
    · obtain ⟨key, he⟩ := Order.mem_of_sortUnique hsorted hitem
      exact ih _ he (hnames.inside .set)
  | map hcount _ _ hsorted ihkeys ihvalues =>
    refine .map_of_items ⟨?_, trivial⟩ fun item hitem => ?_
    · simp only [Fits, Order.length_of_sortUnique hsorted, List.length_map]
      exact hcount.lt
    · obtain ⟨_, hentry⟩ := Order.mem_of_sortUnique hsorted hitem
      obtain ⟨e, he, hp⟩ := List.mem_map.1 hentry
      refine ⟨(e.1.2, e.2.2), (congrArg Prod.snd hp).symm, ?_, ?_⟩
      · exact ihkeys e he (hnames.inside .key)
      · exact ihvalues e he (hnames.inside .value)
  | absent => exact .absent ⟨trivial, trivial⟩
  | @present _ _ _ v _ ih =>
    -- The payload may be null itself, and then nothing tells that it is there.
    cases v with
    | null => exact .absent ⟨trivial, trivial⟩
    | _ => exact .present ⟨trivial, trivial⟩ rfl (ih (hnames.inside .optional))
  | pair _ _ iha ihb =>
    exact .pair ⟨trivial, trivial⟩ (iha (hnames.inside .first)) (ihb (hnames.inside .second))
  | variant _ hcase _ ih =>
    exact .variant ⟨trivial, trivial⟩ rfl hcase (ih (hnames.inside (.case (mem_of_lookup hcase))))
  | @struct _ _ parts _ ih =>
    have hdistinct : ((parts.map Prod.fst).map Prod.fst).Nodup := hnames _ (.refl _)
    refine .struct ⟨trivial, trivial⟩ hdistinct ?_ fun f hf => ?_
    · rw [Record.ofList_of_nodup (by rwa [List.map_map] at hdistinct ⊢)]
      simp [Record.keys]
    · obtain ⟨p, hp, rfl⟩ := List.mem_map.1 hf
      rw [field_of_parts hdistinct hp]
      exact ih p hp (hnames.inside (.field hf))
  | @objectId _ space type n _ _ =>
    refine .objectId ⟨trivial, rfl⟩ rfl (by simp) ?_
    rw [UInt32.toNat_toUInt64]
    exact n.toNat_lt
  | anyObjectId _ => exact .anyObjectId ⟨trivial, trivial⟩ (ObjectId.inst_ofPacked_lt _)
  | publicKey hcheck => exact .publicKey ⟨trivial, trivial⟩ hcheck
  | address hbytes => exact .address ⟨trivial, trivial⟩ hbytes
  | operation htable _ hcase _ ih =>
    exact .operation ⟨trivial, trivial⟩ htable rfl hcase
      (ih (hnames.inside (.operation htable (mem_of_lookup hcase))))

end Spells

end ChainCodec.Codec
