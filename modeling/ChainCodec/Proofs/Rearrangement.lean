import ChainCodec.Proofs.Collections

/-! # Inputs that differ in order only

    The order of the keys of an object never matters, and the order of the
    items of an array does not matter where a set or a map looks at the array.
    `Rearranged` says that two inputs are the same but for such changes.

    Which codec looks at a part follows from the codec that looks at the
    whole.  The rules go down both at the same time; where no codec looks,
    arrays are kept as they are.

    Inputs that differ in order only have the same canonical value:
    `alike_of_rearranged`.  The induction is on the rearrangement, and for
    each rule it uses what becomes of arrays and objects in general. -/

namespace ChainCodec.Codec

/-- The second value is the first one with the keys of objects in another
    order, and the items of arrays that a set or a map looks at. -/
inductive Rearranged (env : Registries) : Option Codec → Value → Value → Prop
  | refl {o : Option Codec} (v : Value) : Rearranged env o v v
  | trans {o : Option Codec} {u v w : Value} (h : Rearranged env o u v)
      (h' : Rearranged env o v w) : Rearranged env o u w
  /-- The keys of an object, which are distinct. -/
  | keys {o : Option Codec} {record record' : Record Value}
      (hdistinct : (Record.keys record).Nodup) (hperm : record.Perm record') :
      Rearranged env o (.object record) (.object record')
  /-- The elements of a set, or the entries of a map. -/
  | elements {c : Codec} {items items' : List Value} (hsorts : c.sorts = true)
      (hperm : items.Perm items') : Rearranged env (some c) (.array items) (.array items')
  /-- Inside a value that a lazy one stands for. -/
  | lazy {o : Option Codec} {v w : Value} (h : Rearranged env o v w) :
      Rearranged env o (.lazy v) (.lazy w)
  /-- Inside the fields of an object. -/
  | fields {o : Option Codec} {ps : Record (Value × Value)}
      (h : ∀ p ∈ ps, Rearranged env (o.bind (named? p.1)) p.2.1 p.2.2) :
      Rearranged env o (.object (Record.mapValues Prod.fst ps))
        (.object (Record.mapValues Prod.snd ps))
  /-- Inside the items of an array. -/
  | items {o : Option Codec} {ps : List (Value × Value)}
      (h : ∀ p ∈ ps, Rearranged env (o.bind element?) p.1 p.2) :
      Rearranged env o (.array (ps.map Prod.fst)) (.array (ps.map Prod.snd))
  /-- Inside two items that have codecs of their own. -/
  | pair {o : Option Codec} {a a' b b' : Value} (ha : Rearranged env (o.bind first?) a a')
      (hb : Rearranged env (o.bind (second? env a)) b b') :
      Rearranged env o (.array [a, b]) (.array [a', b'])

variable {env : Registries} {c d e : Codec} {o : Option Codec} {u v w raw : Value}

/-! ## Values that are normalized alike -/

/-- Both values have the same canonical values. -/
def SameNormal (env : Registries) (c : Codec) (v w : Value) : Prop :=
  ∀ raw, normalize env c v = .ok raw ↔ normalize env c w = .ok raw

theorem SameNormal.symm (h : SameNormal env c v w) : SameNormal env c w v :=
  fun raw => (h raw).symm

/-- The codec may be the one that looks at a value. -/
def MayLook (o : Option Codec) (c : Codec) : Prop := ∀ d ∈ o, d = c

theorem mayLook_of_eq (h : o = some c) : MayLook o c :=
  fun _ hd => Option.some.inj (hd.symm.trans h)

theorem MayLook.bind {f : Codec → Option Codec} (hc : MayLook o c) (hd : MayLook (f c) d) :
    MayLook (o.bind f) d := by
  intro e he
  obtain ⟨c', hc', he'⟩ := Option.bind_eq_some_iff.1 he
  rw [hc c' hc'] at he'
  exact hd e he'

/-- Codecs cannot tell the values apart, whether or not a fee is filled in, and
    neither can what looks at a fee or a tag. -/
structure Alike (env : Registries) (o : Option Codec) (v w : Value) : Prop where
  normal : ∀ c, MayLook o c → DistinctNames env c → ∀ asset,
    SameNormal env c (withFee asset v) (withFee asset w)
  isNull : v.isNull = w.isNull
  tag : Check.tag v.resolve = Check.tag w.resolve

namespace Alike

theorem refl (v : Value) : Alike env o v v := ⟨fun _ _ _ _ _ => Iff.rfl, rfl, rfl⟩

theorem trans (h : Alike env o u v) (h' : Alike env o v w) : Alike env o u w where
  normal c hc hnames asset raw :=
    (h.normal c hc hnames asset raw).trans (h'.normal c hc hnames asset raw)
  isNull := h.isNull.trans h'.isNull
  tag := h.tag.trans h'.tag

/-- Where no codec is known to look, any codec may look. -/
theorem of_none (h : Alike env none v w) : Alike env o v w :=
  ⟨fun c _ => h.normal c (fun _ hd => by cases hd), h.isNull, h.tag⟩

/-- The codec of a part, once that of the whole is known. -/
theorem of_bind {f : Codec → Option Codec} (h : Alike env (o.bind f) v w) (hc : MayLook o c) :
    Alike env (f c) v w :=
  ⟨fun d hd => h.normal d (hc.bind hd), h.isNull, h.tag⟩

theorem sameNormal (h : Alike env o v w) (hc : MayLook o c) (hnames : DistinctNames env c) :
    SameNormal env c v w := by
  intro raw
  rw [← normalize_resolve c v, ← normalize_resolve c w]
  exact h.normal c hc hnames none raw

theorem array {items items' : List Value}
    (h : ∀ c, MayLook o c → DistinctNames env c →
      SameNormal env c (.array items) (.array items')) :
    Alike env o (.array items) (.array items') where
  normal c hc hnames asset := by
    -- An array is not given a fee.
    cases asset <;> exact h c hc hnames
  isNull := rfl
  tag := rfl

theorem object {record record' : Record Value}
    (h : ∀ c, MayLook o c → DistinctNames env c →
      SameNormal env c (.object record) (.object record') ∧
        ∀ asset, SameNormal env c (.object (Fee.complete asset record))
          (.object (Fee.complete asset record'))) :
    Alike env o (.object record) (.object record') where
  normal c hc hnames asset := by
    cases asset with
    | none => exact (h c hc hnames).1
    | some asset => exact (h c hc hnames).2 asset
  isNull := rfl
  tag := rfl

end Alike

/-! ## Arrays -/

theorem sameNormal_array (he : c.element? = some e) {items items' : List Value}
    (h : List.Forall₂ (SameNormal env e) items items') :
    SameNormal env c (.array items) (.array items') := by
  have hstep : ∀ {items items'}, List.Forall₂ (SameNormal env e) items items' → ∀ raw,
      normalize env c (.array items) = .ok raw → normalize env c (.array items') = .ok raw := by
    intro items items' h raw hraw
    obtain ⟨raws, hraws, hcollects⟩ := (normalize_array_eq_ok c he).1 hraw
    refine (normalize_array_eq_ok c he).2 ⟨raws, ?_, hcollects⟩
    refine (forall₂_comp.2 ⟨items, h.flip, hraws⟩).imp fun item raw hitem => ?_
    obtain ⟨item', hsame, hnormal⟩ := hitem
    exact (hsame raw).1 hnormal
  exact fun raw => ⟨hstep h raw, hstep (h.flip.imp fun _ _ => SameNormal.symm) raw⟩

/-- The items move, their canonical values move along, and are put in order. -/
theorem sameNormal_of_perm (hsorts : c.sorts = true) {items items' : List Value}
    (hperm : items.Perm items') : SameNormal env c (.array items) (.array items') := by
  obtain ⟨e, he⟩ := exists_element?_of_sorts c hsorts
  have hstep : ∀ {items items' : List Value}, items.Perm items' → ∀ raw,
      normalize env c (.array items) = .ok raw → normalize env c (.array items') = .ok raw := by
    intro items items' hperm raw hraw
    obtain ⟨raws, hraws, hcollects⟩ := (normalize_array_eq_ok c he).1 hraw
    obtain ⟨raws', hraws', hperm'⟩ := List.perm_comp_forall₂ hperm.symm hraws
    exact (normalize_array_eq_ok c he).2 ⟨raws', hraws', hcollects.perm c hsorts hperm'.symm⟩
  exact fun raw => ⟨hstep hperm raw, hstep hperm.symm raw⟩

theorem Opens.congr {cases : CaseTable} {t t' payload payload' : Value}
    (htag : Check.tag t.resolve = Check.tag t'.resolve)
    (h : ∀ tag c, Check.tag t.resolve = .ok tag → cases.lookup tag = some c →
      SameNormal env c payload payload') :
    Opens env cases t payload raw ↔ Opens env cases t' payload' raw := by
  constructor
  · intro hopens
    rcases hopens with ⟨tag, c, raw', ht, hc, hraw, he⟩
    exact ⟨tag, c, raw', htag ▸ ht, hc, (h tag c ht hc raw').1 hraw, he⟩
  · intro hopens
    rcases hopens with ⟨tag, c, raw', ht, hc, hraw, he⟩
    rw [← htag] at ht
    exact ⟨tag, c, raw', ht, hc, (h tag c ht hc raw').2 hraw, he⟩

theorem selected?_eq_of_lookup {cases : CaseTable} {t : Value} {tag : UInt32}
    (htag : Check.tag t.resolve = .ok tag) (hcase : cases.lookup tag = some c) :
    selected? cases t = some c := by
  rw [selected?, htag]
  exact hcase

theorem Couples.congr (c : Codec) (hnames : DistinctNames env c) {a a' b b' : Value}
    (ha : Alike env c.first? a a') (hb : Alike env (c.second? env a) b b') :
    c.Couples env a b raw ↔ c.Couples env a' b' raw := by
  match c with
  | .pair c d =>
    have ha := ha.sameNormal (mayLook_of_eq (c := c) rfl) (hnames.inside .first)
    have hb := hb.sameNormal (mayLook_of_eq (c := d) rfl) (hnames.inside .second)
    simp only [Couples, ha _, hb _]
  | .variant label cases =>
    refine Opens.congr ha.tag fun tag c htag hcase => ?_
    have hlook : MayLook (second? env a (.variant label cases)) c :=
      mayLook_of_eq (selected?_eq_of_lookup htag hcase)
    exact hb.sameNormal hlook (hnames.inside (.case (mem_of_lookup hcase)))
  | .operation link =>
    refine exists_congr fun table => and_congr_right fun htable => ?_
    refine Opens.congr ha.tag fun tag c htag hcase => ?_
    have hlook : MayLook (second? env a (.operation link)) c := by
      apply mayLook_of_eq
      simp only [second?, htable]
      exact selected?_eq_of_lookup htag hcase
    exact hb.normal c hlook (hnames.inside (.operation htable (mem_of_lookup hcase))) _
  | .optional c => exact Couples.congr c (hnames.inside .optional) ha hb
  | .int _ | .varint | .bool | .bytes _ | .string | .time | .void | .vector _ | .set _ | .map ..
  | .struct .. | .objectId .. | .anyObjectId | .publicKey .. | .address .. => exact Iff.rfl

theorem sameNormal_couple (hc : c.element? = none) (hnames : DistinctNames env c)
    {a a' b b' : Value} (ha : Alike env c.first? a a') (hb : Alike env (c.second? env a) b b') :
    SameNormal env c (.array [a, b]) (.array [a', b']) := by
  intro raw
  rw [normalize_couple_eq_ok c hc, normalize_couple_eq_ok c hc]
  constructor
  · intro h
    rcases h with ⟨_, _, ⟨⟩, h⟩
    exact ⟨a', b', rfl, (Couples.congr c hnames ha hb).1 h⟩
  · intro h
    rcases h with ⟨_, _, ⟨⟩, h⟩
    exact ⟨a, b, rfl, (Couples.congr c hnames ha hb).2 h⟩

theorem sameNormal_items (hnames : DistinctNames env c) {ps : List (Value × Value)}
    (h : ∀ p ∈ ps, Alike env c.element? p.1 p.2) :
    SameNormal env c (.array (ps.map Prod.fst)) (.array (ps.map Prod.snd)) := by
  cases hc : c.element? with
  | some e =>
    apply sameNormal_array hc
    rw [List.forall₂_map_left_iff, List.forall₂_map_right_iff, List.forall₂_same]
    exact fun p hp => (h p hp).sameNormal (mayLook_of_eq hc) (hnames.element? c hc)
  | none =>
    rw [hc] at h
    -- Of the other arrays only those of two are accepted.
    match ps with
    | [p, q] => exact sameNormal_couple hc hnames (h p (by simp)).of_none (h q (by simp)).of_none
    | [] | [_] | _ :: _ :: _ :: _ =>
      intro raw
      rw [normalize_couple_eq_ok c hc, normalize_couple_eq_ok c hc]
      constructor <;> rintro ⟨_, _, ⟨⟩, _⟩

theorem sameNormal_pair (hnames : DistinctNames env c) {a a' b b' : Value}
    (ha : Alike env c.first? a a') (hb : Alike env (c.second? env a) b b') :
    SameNormal env c (.array [a, b]) (.array [a', b']) := by
  cases hc : c.element? with
  | some e =>
    -- A codec for all items has none for the first or the second one.
    obtain ⟨hfirst, hsecond⟩ := first?_second?_of_element? c a hc
    rw [hfirst] at ha
    rw [hsecond] at hb
    have hitems : ∀ p ∈ [(a, a'), (b, b')], Alike env c.element? p.1 p.2 := by
      intro p hp
      rcases List.mem_pair.1 hp with rfl | rfl
      · exact ha.of_none
      · exact hb.of_none
    have hsame := sameNormal_items hnames hitems
    exact hsame
  | none => exact sameNormal_couple hc hnames ha hb

/-! ## Objects -/

theorem sameNormal_keys (hnames : DistinctNames env c) {record record' : Record Value}
    (hdistinct : (Record.keys record).Nodup) (hperm : record.Perm record') :
    SameNormal env c (.object record) (.object record') := by
  refine normalize_object_congr c hnames (fun name => (Record.keys_perm hperm).mem_iff) ?_ ?_
  · intro name d _ _ raw
    rw [Value.field_eq_of_perm hdistinct hperm]
  · intro d e _ _
    exact sameNormal_of_perm rfl (hperm.map _)

theorem isGiven_eq_of_perm {record record' : Record Value}
    (hdistinct : (Record.keys record).Nodup) (hperm : record.Perm record') :
    Fee.isGiven record = Fee.isGiven record' := by
  rw [Bool.eq_iff_iff, isGiven_iff, isGiven_iff, Value.field_eq_of_perm hdistinct hperm]

/-- A fee is filled into a record in any order. -/
theorem complete_perm (asset : String) {record record' : Record Value}
    (hdistinct : (Record.keys record).Nodup) (hperm : record.Perm record') :
    (Record.keys (Fee.complete asset record)).Nodup ∧
      (Fee.complete asset record).Perm (Fee.complete asset record') := by
  unfold Fee.complete
  rw [← isGiven_eq_of_perm hdistinct hperm]
  split
  · exact ⟨hdistinct, hperm⟩
  · exact ⟨Record.nodup_insert _ _ hdistinct, Record.insert_perm _ _ hdistinct hperm⟩

theorem field_mapValues (ps : Record (Value × Value)) (name : String) :
    (∃ p ∈ ps, p.1 = name ∧ Value.field (Record.mapValues Prod.fst ps) name = p.2.1 ∧
      Value.field (Record.mapValues Prod.snd ps) name = p.2.2) ∨
    Value.field (Record.mapValues Prod.fst ps) name =
      Value.field (Record.mapValues Prod.snd ps) name := by
  simp only [Value.field, Record.get?_mapValues]
  cases h : Record.get? name ps with
  | none => exact .inr rfl
  | some p => exact .inl ⟨(name, p), mem_of_lookup h, rfl, rfl, rfl⟩

theorem sameNormal_fields (hnames : DistinctNames env c) {ps : Record (Value × Value)}
    (h : ∀ p ∈ ps, Alike env (c.named? p.1) p.2.1 p.2.2) :
    SameNormal env c (.object (Record.mapValues Prod.fst ps))
      (.object (Record.mapValues Prod.snd ps)) := by
  refine normalize_object_congr c hnames ?_ ?_ ?_
  · intro name
    rw [Record.keys_mapValues, Record.keys_mapValues]
  · intro name d hd hnames raw
    rcases field_mapValues ps name with ⟨p, hp, rfl, hfst, hsnd⟩ | heq
    · rw [hfst, hsnd]
      exact (h p hp).sameNormal (mayLook_of_eq hd) hnames raw
    · rw [heq]
  · intro d e he hmap
    -- As entries of a map the fields are pairs of the same keys.
    refine sameNormal_array (e := .pair d e) rfl ?_
    rw [List.forall₂_map_left_iff, List.forall₂_map_right_iff, Record.mapValues, Record.mapValues,
      List.forall₂_map_left_iff, List.forall₂_map_right_iff, List.forall₂_same]
    intro p hp
    have hpair : DistinctNames env (.pair d e) := hmap.element? (.map d e) rfl
    have hvalue := h p hp
    rw [he] at hvalue
    exact sameNormal_couple rfl hpair (.refl _) hvalue

theorem isGiven_mapValues {ps : Record (Value × Value)}
    (h : ∀ p ∈ ps, p.2.1.isNull = p.2.2.isNull) :
    Fee.isGiven (Record.mapValues Prod.fst ps) = Fee.isGiven (Record.mapValues Prod.snd ps) := by
  simp only [Fee.isGiven, Record.get?_mapValues]
  cases hfee : Record.get? Fee.fieldName ps with
  | none => rfl
  | some fee => exact congrArg not (h (Fee.fieldName, fee) (mem_of_lookup hfee))

/-- A fee is filled into alike records at the same place. -/
theorem exists_complete (asset : String) {ps : Record (Value × Value)}
    (h : ∀ p ∈ ps, p.2.1.isNull = p.2.2.isNull) :
    ∃ qs, Fee.complete asset (Record.mapValues Prod.fst ps) = Record.mapValues Prod.fst qs ∧
      Fee.complete asset (Record.mapValues Prod.snd ps) = Record.mapValues Prod.snd qs ∧
        ∀ q ∈ qs, q ∈ ps ∨ q.2.1 = q.2.2 := by
  unfold Fee.complete
  rw [← isGiven_mapValues h]
  split
  · exact ⟨ps, rfl, rfl, fun q hq => .inl hq⟩
  · have hfst := Record.insert_mapValues Prod.fst ps Fee.fieldName (Fee.zero asset, Fee.zero asset)
    have hsnd := Record.insert_mapValues Prod.snd ps Fee.fieldName (Fee.zero asset, Fee.zero asset)
    refine ⟨_, hfst, hsnd, fun q hq => ?_⟩
    refine (Record.mem_insert hq).imp id fun he => ?_
    rw [he]

/-! ## Rearrangements -/

/-- Inputs that differ in order only are normalized alike. -/
theorem alike_of_rearranged (h : Rearranged env o v w) : Alike env o v w := by
  induction h with
  | refl v => exact .refl v
  | trans _ _ ih ih' => exact ih.trans ih'
  | lazy _ ih => exact ⟨ih.normal, rfl, ih.tag⟩
  | elements hsorts hperm =>
    refine .array fun c hc _ => ?_
    obtain rfl := hc _ rfl
    exact sameNormal_of_perm hsorts hperm
  | items _ ih =>
    exact .array fun c hc hnames => sameNormal_items hnames fun p hp => (ih p hp).of_bind hc
  | pair _ _ iha ihb =>
    exact .array fun c hc hnames => sameNormal_pair hnames (iha.of_bind hc) (ihb.of_bind hc)
  | keys hdistinct hperm =>
    refine .object fun c _ hnames => ⟨sameNormal_keys hnames hdistinct hperm, fun asset => ?_⟩
    obtain ⟨hdistinct', hperm'⟩ := complete_perm asset hdistinct hperm
    exact sameNormal_keys hnames hdistinct' hperm'
  | fields _ ih =>
    refine .object fun c hc hnames =>
      ⟨sameNormal_fields hnames fun p hp => (ih p hp).of_bind hc, fun asset => ?_⟩
    -- A fee that is filled in is the same in both.
    obtain ⟨qs, hfst, hsnd, hqs⟩ := exists_complete asset fun p hp => (ih p hp).isNull
    rw [hfst, hsnd]
    refine sameNormal_fields hnames fun q hq => ?_
    rcases hqs q hq with hq | heq
    · exact (ih q hq).of_bind hc
    · rw [heq]
      exact .refl _

end ChainCodec.Codec
