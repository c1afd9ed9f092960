import ChainCodec.Proofs.Children
import ChainCodec.Proofs.PrefixFree
import ChainCodec.Proofs.SortedVectors

/-! # Entries may come in any order on the wire

    Sets and maps are sorted when they are read, so the encodings of the entries
    of a canonical value spell that value in whatever order they follow their
    number: `Gathers.spells_of_perm`.

    Canonical bytes are what writing it again gives.  Serializing it gives them
    too exactly if each entry is its own canonical value: normalization looks at
    the entries apart from each other, so a fee that is filled into the
    collection is filled into one of its entries. -/

namespace ChainCodec.Codec

variable {env : Registries} {c d e : Codec} {k : Nat} {b : Bytes} {v raw : Value}
  {entries entries' : List Value} {parts : List Bytes}

/-! ## Collections and their entries -/

/-- The first codec puts entries of the second one in order. -/
inductive Gathers : Codec → Codec → Prop
  | set {c : Codec} : Gathers (.set c) c
  | map {c d : Codec} : Gathers (.map c d) (.pair c d)

namespace Gathers

theorem distinctNames (hc : c.Gathers e) (hnames : DistinctNames env c) : DistinctNames env e := by
  cases hc with
  | set => exact hnames.inside .set
  | map => exact hnames.pair_of_map

theorem exists_entries {P : Codec → Value → Prop} (hc : c.Gathers e) (h : Shaped env P c raw) :
    ∃ entries, raw = .array entries := by
  cases hc with
  | set =>
    cases h with
    | set _ _ => exact ⟨_, rfl⟩
  | map =>
    cases h with
    | map _ _ _ _ => exact ⟨_, rfl⟩

theorem shaped_entry (hc : c.Gathers e) (h : Shaped env (Ordered env) c (.array entries))
    {entry : Value} (hentry : entry ∈ entries) : Shaped env (Ordered env) e entry := by
  cases hc with
  | set => exact h.child (.element hentry)
  | map =>
    cases h with
    | map _ hpairs hkeys hvalues =>
      subst hpairs
      obtain ⟨p, hp, rfl⟩ := List.mem_map.1 hentry
      exact .pair trivial (hkeys p hp) (hvalues p hp)

/-- The bytes of a collection are the number of its entries and their bytes. -/
theorem encode_eq_ok (hc : c.Gathers e) :
    encode env c (.array entries) = .ok b ↔
      entries.length < UInt32.size ∧
        ∃ parts, List.Forall₂ (fun entry bs => encode env e entry = .ok bs) entries parts ∧
          b = Varint.encode (UInt32.ofNat entries.length) ++ parts.flatten := by
  cases hc with
  | set => exact encode_set_eq_ok
  | map => exact encode_map_array_eq_ok.trans encode_vector_eq_ok

end Gathers

/-! ## Spellings in another order -/

theorem spells_set_of_perm (hordered : Ordered env (.set c) (.array entries))
    (h : ∀ entry ∈ entries, ∀ bs, encode env c entry = .ok bs → Spells env k c bs entry)
    (hlength : entries.length < UInt32.size) (hperm : entries'.Perm entries)
    (hparts : List.Forall₂ (fun entry bs => encode env c entry = .ok bs) entries' parts) :
    Spells env k (.set c) (Varint.encode (UInt32.ofNat entries.length) ++ parts.flatten)
      (.array entries) := by
  obtain ⟨zs, rfl, rfl, hzs⟩ := exists_zip hparts.flip
  -- The canonical order is one of the parts as well.
  obtain ⟨sorted, hsorted, rfl⟩ := exists_perm_of_perm_map hperm.symm
  have hsort := sortUnique_of_ordered_set (fun z hz => hzs z (hsorted.subset hz)) hordered
  have hcount : (sorted.map Prod.snd).length = zs.length := by
    rw [List.length_map, hsorted.length_eq]
  rw [hcount] at hlength ⊢
  refine .set (Varint.counts_encode hlength) (fun z hz => ?_)
    ((Order.sortUnique_perm hsorted.symm).trans hsort)
  exact h z.2 (List.mem_map_of_mem (hsorted.symm.subset hz)) z.1 (hzs z hz)

theorem spells_map_of_perm {pairs pairs' : List (Value × Value)}
    (hordered : Ordered env (.map c d) (.array (pairs.map Value.entry)))
    (hkeys : ∀ p ∈ pairs, ∀ bs, encode env c p.1 = .ok bs → Spells env k c bs p.1)
    (hvalues : ∀ p ∈ pairs, ∀ bs, encode env d p.2 = .ok bs → Spells env k d bs p.2)
    (hlength : pairs.length < UInt32.size) (hperm : pairs'.Perm pairs)
    (hparts : List.Forall₂ (fun p bs => encode env (.pair c d) (Value.entry p) = .ok bs)
      pairs' parts) :
    Spells env k (.map c d) (Varint.encode (UInt32.ofNat pairs.length) ++ parts.flatten)
      (.array (pairs.map Value.entry)) := by
  -- The bytes of an entry are those of its key and those of its value.
  obtain ⟨qs, hqs, rfl⟩ := exists_forall₂_map (f := fun q : Bytes × Bytes => q.1 ++ q.2)
    (R := fun p q => encode env c p.1 = .ok q.1 ∧ encode env d p.2 = .ok q.2)
    (hparts.imp fun p part hpart => by
      obtain ⟨as, bs, has, hbs, rfl⟩ := encode_pair_eq_ok.1 hpart
      exact ⟨(as, bs), ⟨has, hbs⟩, rfl⟩)
  obtain ⟨zs, rfl, rfl, hzs⟩ := exists_zip hqs
  obtain ⟨sorted, hsorted, rfl⟩ := exists_perm_of_perm_map hperm.symm
  let part : (Value × Value) × (Bytes × Bytes) → Order.Entry × Order.Entry :=
    fun z => ((z.2.1, z.1.1), (z.2.2, z.1.2))
  have hmem : ∀ z ∈ zs, z.1 ∈ sorted.map Prod.fst := fun z hz =>
    List.mem_map_of_mem (hsorted.symm.subset hz)
  have hitems : (sorted.map Prod.fst).map Value.entry =
      (sorted.map part).map fun e => Value.entry (e.1.2, e.2.2) := by
    simp [part]
  have hflat : ((zs.map Prod.snd).map fun q => q.1 ++ q.2).flatten =
      (zs.map part).flatMap fun e => e.1.1 ++ e.2.1 := by
    rw [flatten_map_eq_flatMap]
    simp [part, List.flatMap_map]
  have hcount : (sorted.map Prod.fst).length = (zs.map part).length := by
    rw [List.length_map, List.length_map, hsorted.length_eq]
  have hsort : Order.sortUnique ((sorted.map part).map fun e =>
      (e.1.1, Value.entry (e.1.2, e.2.2))) =
        .ok ((sorted.map part).map fun e => Value.entry (e.1.2, e.2.2)) := by
    refine sortUnique_of_ordered_map (fun e he => ?_) (hitems ▸ hordered)
    obtain ⟨z, hz, rfl⟩ := List.mem_map.1 he
    exact (hzs z (hsorted.subset hz)).1
  rw [hcount] at hlength ⊢
  rw [hitems, hflat]
  refine .map (Varint.counts_encode hlength) (fun e he => ?_) (fun e he => ?_)
    ((Order.sortUnique_perm ((hsorted.map part).map _).symm).trans hsort)
  · obtain ⟨z, hz, rfl⟩ := List.mem_map.1 he
    exact hkeys z.1 (hmem z hz) _ (hzs z hz).1
  · obtain ⟨z, hz, rfl⟩ := List.mem_map.1 he
    exact hvalues z.1 (hmem z hz) _ (hzs z hz).2

/-- The entries of a canonical collection spell it in any order. -/
theorem Gathers.spells_of_perm (hc : c.Gathers e)
    (h : Shaped env (fun d w => Ordered env d w ∧ d.TellsType) c (.array entries))
    (hk : NestsWithin env k c (.array entries)) (hlength : entries.length < UInt32.size)
    (hperm : entries'.Perm entries)
    (hparts : List.Forall₂ (fun entry bs => encode env e entry = .ok bs) entries' parts) :
    Spells env k c (Varint.encode (UInt32.ofNat entries.length) ++ parts.flatten)
      (.array entries) := by
  cases hc with
  | set =>
    refine spells_set_of_perm h.holds.1 (fun entry hentry bs hbs => ?_) hlength hperm hparts
    exact spells_of_encode (h.child (.element hentry)) (hk.child (.element hentry)) hbs
  | map =>
    cases h with
    | @map _ _ _ pairs hP hpairs hkeys hvalues =>
      subst hpairs
      obtain ⟨pairs', hpairs', rfl⟩ := exists_perm_of_perm_map hperm
      rw [List.length_map] at hlength ⊢
      refine spells_map_of_perm hP.1 (fun p hp bs hbs => ?_) (fun p hp bs hbs => ?_) hlength
        hpairs' (List.forall₂_map_left_iff.1 hparts)
      · exact spells_of_encode (hkeys p hp) (hk.child (.key (List.mem_map_of_mem hp))) hbs
      · exact spells_of_encode (hvalues p hp) (hk.child (.value (List.mem_map_of_mem hp))) hbs

/-! ## Serializing what was read -/

/-- The fees of a collection are the fees of its entries. -/
theorem Gathers.settled_iff (hc : c.Gathers e) :
    (∀ n d w, Part env c (.array entries) n d w → Settled env d w) ↔
      ∀ entry ∈ entries, ∀ n d w, Part env e entry n d w → Settled env d w := by
  cases hc with
  | set =>
    constructor
    · intro hsettled entry hentry n d w hw
      exact hsettled _ d w (.step (.element hentry) hw)
    · intro hsettled n d w hw
      cases hw with
      | self => exact fun _ _ _ hlink => nomatch hlink
      | step hchild hw =>
        cases hchild with
        | element hentry => exact hsettled _ hentry _ d w hw
  | map =>
    constructor
    · intro hsettled entry hentry n d w hw
      cases hw with
      | self => exact fun _ _ _ hlink => nomatch hlink
      | step hchild hw =>
        -- A part of a pair is its key, or its value, or a part of one of these.
        cases hchild with
        | first => exact hsettled _ d w (.step (.key (p := (_, _)) hentry) hw)
        | second => exact hsettled _ d w (.step (.value (p := (_, _)) hentry) hw)
    · intro hsettled n d w hw
      cases hw with
      | self => exact fun _ _ _ hlink => nomatch hlink
      | step hchild hw =>
        cases hchild with
        | key hentry => exact hsettled _ hentry _ d w (.step .first hw)
        | value hentry => exact hsettled _ hentry _ d w (.step .second hw)

/-- A collection is its own canonical value exactly if its entries are. -/
theorem Gathers.normalize_self_iff (hc : c.Gathers e) (hnames : DistinctNames env c)
    (h : Shaped env (Ordered env) c (.array entries)) :
    normalize env c (.array entries) = .ok (.array entries) ↔
      ∀ entry ∈ entries, normalize env e entry = .ok entry := by
  rw [Codec.normalize_self_iff hnames h, hc.settled_iff]
  refine forall₂_congr fun entry hentry => ?_
  exact (Codec.normalize_self_iff (hc.distinctNames hnames) (hc.shaped_entry h hentry)).symm

/-- Canonical bytes are those of one canonical value, so only this value is
    serialized to them again. -/
theorem serialize_self_iff (hnames : DistinctNames env c) (hsingle : SingleTyped env c)
    (hv : normalize env c v = .ok raw) (hb : encode env c raw = .ok b) :
    serialize env c raw = .ok b ↔ normalize env c raw = .ok raw := by
  have hserialize : serialize env c v = .ok b := (serialize_of_normalize hv).trans hb
  constructor
  · intro h
    rw [normalize_eq_of_serialize hnames hsingle h hserialize, hv]
  · intro h
    exact (serialize_of_normalize h).trans hb

/-- Whatever the order in which the encodings of the entries of a canonical set
    or map follow their number, they are deserialized to it.  It is serialized
    to its canonical bytes if the codec of the entries gives each of them back,
    and only then; all codecs do that whose operations keep their fees. -/
theorem deserialize_perm (hc : c.Gathers e) (hnames : DistinctNames env c)
    (hsingle : SingleTyped env c) (hv : normalize env c v = .ok raw)
    (hnests : NestsWithin env defaultMaxDepth c raw) (hb : encode env c raw = .ok b) :
    ∃ entries, raw = .array entries ∧
      (∀ entries' : List Value, entries'.Perm entries →
        ∃ parts, List.Forall₂ (fun entry bs => encode env e entry = .ok bs) entries' parts ∧
          deserialize env c (Varint.encode (UInt32.ofNat entries.length) ++ parts.flatten) =
            .ok raw) ∧
      (serialize env c raw = .ok b ↔ ∀ entry ∈ entries, normalize env e entry = .ok entry) ∧
      (FeesKept env c → serialize env c raw = .ok b) := by
  have hshape := shaped_of_normalize hnames hv
  have hself := serialize_self_iff hnames hsingle hv hb
  obtain ⟨entries, rfl⟩ := hc.exists_entries hshape
  refine ⟨entries, rfl, fun entries' hperm => ?_, ?_, fun hfees => ?_⟩
  · obtain ⟨hlength, parts, hparts, _⟩ := hc.encode_eq_ok.1 hb
    -- The bytes move along with the entries.
    obtain ⟨parts', hparts', _⟩ := List.perm_comp_forall₂ hperm hparts
    refine ⟨parts', hparts', deserialize_eq_ok_iff.2 ?_⟩
    exact hc.spells_of_perm (shaped_tellsType_of_normalize hnames hsingle hv) hnests hlength hperm
      hparts'
  · exact hself.trans (hc.normalize_self_iff hnames hshape)
  · exact hself.2 (normalize_self_of_feesKept hnames hfees hshape)

/-- 256 comes before 1, by its bytes. -/
def numberedNames : Value :=
  .array [.array [.int 256, .str "b"], .array [.int 1, .str "a"]]

theorem deserialize_perm_numberedNames :
    deserialize .live (.map u16 .string) [2, 1, 0, 1, 97, 0, 1, 1, 98] = .ok numberedNames ∧
      serialize .live (.map u16 .string) numberedNames = .ok [2, 0, 1, 1, 98, 1, 0, 1, 97] := by
  have hnames : DistinctNames .live (.map u16 .string) := fun _ hd =>
    nodup_of_wellFormed (hd.passes Registries.wellFormed_live rfl)
  have hsingle : SingleTyped .live (.map u16 .string) := fun _ hd =>
    tellsType_of_wellFormed (hd.passes Registries.wellFormed_live rfl)
  have hnormal : normalize .live (.map u16 .string)
      (.array [.array [.int 1, .str "a"], .array [.int 256, .str "b"]]) = .ok numberedNames := by
    cbv
  have hb : encode .live (.map u16 .string) numberedNames =
      .ok [2, 0, 1, 1, 98, 1, 0, 1, 97] := by
    cbv
  obtain ⟨entries, hentries, hperm, _, hself⟩ := deserialize_perm .map hnames hsingle hnormal
    (nestsWithin_of_arrayDepth_le _ _ (by decide)) hb
  obtain rfl := Value.array.inj hentries
  refine ⟨?_, hself (Registries.feesKept_live _)⟩
  obtain ⟨parts, hparts, hread⟩ := hperm _ (.swap _ (Value.array [.int 1, .str "a"]) [])
  -- The encodings of the two entries, the second one first.
  have hbytes : List.Forall₂ (fun entry bs => encode .live (.pair u16 .string) entry = .ok bs)
      [.array [.int 1, .str "a"], .array [.int 256, .str "b"]] [[1, 0, 1, 97], [0, 1, 1, 98]] :=
    .cons (by cbv) (.cons (by cbv) .nil)
  rwa [rightUnique_encode.forall₂ hparts hbytes] at hread

end ChainCodec.Codec
