import ChainCodec.Proofs.Checks
import ChainCodec.Proofs.Order
import ChainCodec.Proofs.Records
import ChainCodec.Proofs.Shape
import ChainCodec.Proofs.Unfolding.Normalize

/-! # Normalization gives canonical values

    What `Codec.normalize` gives has the shape of the codec, and all sets and
    maps in it are in the order of their encodings: `shaped_of_normalize`.

    The proof follows `normalizeWith`.  At an operation codec it relies on
    what is known about the operation passed in, and for `normalizeOperation`
    that is an induction on the bound. -/

namespace ChainCodec.Codec

/-! ## Order -/

/-- Sets and maps ascend strictly in the bytes of their elements or keys. -/
def Ordered (env : Registries) : Codec → Value → Prop
  | .set c, .array items =>
      ∃ keys, List.Forall₂ (fun item key => encode env c item = .ok key) items keys ∧
        Order.Ascending keys
  | .map c _, .array items =>
      ∃ keys, List.Forall₂ (fun item key => ∃ p, item = Value.entry p ∧ encode env c p.1 = .ok key)
          items keys ∧
        Order.Ascending keys
  | _, _ => True

theorem rightUnique_encode {env : Registries} {c : Codec} :
    Relator.RightUnique fun (item : Value) (bs : Bytes) => encode env c item = .ok bs :=
  fun _ _ _ h h' => Except.ok.inj (h.symm.trans h')

theorem rightUnique_encode_key {env : Registries} {c : Codec} :
    Relator.RightUnique fun (item : Value) (bs : Bytes) =>
      ∃ p, item = Value.entry p ∧ encode env c p.1 = .ok bs := by
  rintro _ _ _ ⟨p, rfl, h⟩ ⟨q, hq, h'⟩
  obtain rfl := Value.entry_injective hq
  exact Except.ok.inj (h.symm.trans h')

/-- Sorted entries are values with the keys that they were given. -/
theorem exists_keys_of_sortUnique {R : Bytes → Value → Prop} {entries : List Order.Entry}
    {values : List Value} (hR : ∀ e ∈ entries, R e.1 e.2)
    (h : Order.sortUnique entries = .ok values) :
    ∃ keys, List.Forall₂ (fun value key => R key value) values keys ∧ Order.Ascending keys := by
  -- Sorting only moves entries, so each value keeps the key it came with.
  obtain ⟨sorted, hperm, hascending, rfl⟩ := Order.exists_perm_of_sortUnique h
  refine ⟨sorted.map Prod.fst, ?_, hascending⟩
  rw [List.forall₂_map_left_iff, List.forall₂_map_right_iff, List.forall₂_same]
  exact fun e he => hR e (hperm.subset he)

/-! ## Shape -/

variable {env : Registries} {op : NormalizeOperation}

/-- What is assumed of the operations inside a codec. -/
def GivesShape (env : Registries) (op : NormalizeOperation) : Prop :=
  ∀ link v raw, DistinctNames env (.operation link) → op link v = .ok raw →
    Shaped env (Ordered env) (.operation link) raw

section Collections

variable {c d : Codec} {v raw : Value}

/-- Elements are put in the order of the bytes that they are written with. -/
theorem shaped_set_of_normalizeWith
    (hc : ∀ {v raw}, normalizeWith (encode env) op c v = .ok raw → Shaped env (Ordered env) c raw)
    (h : normalizeWith (encode env) op (.set c) v = .ok raw) :
    Shaped env (Ordered env) (.set c) raw := by
  simp only [normalizeWith, Except.bind_eq_ok, Except.pure_eq_ok, Except.mapError_eq_ok] at h
  obtain ⟨items, _, entries, hentries, sorted, hsorted, rfl⟩ := h
  have hentry : ∀ e ∈ entries, encode env c e.2 = .ok e.1 ∧ Shaped env (Ordered env) c e.2 := by
    intro e he
    obtain ⟨_, item, _, hitem⟩ := exists_of_mem_traverseFrom hentries he
    simp only [Except.bind_eq_ok, Except.pure_eq_ok, Check.within_eq_ok] at hitem
    obtain ⟨raw, hraw, bs, hbs, rfl⟩ := hitem
    exact ⟨hbs, hc hraw⟩
  refine .set ?_ fun raw hraw => ?_
  · exact exists_keys_of_sortUnique (fun e he => (hentry e he).1) hsorted
  · obtain ⟨key, he⟩ := Order.mem_of_sortUnique hsorted hraw
    exact (hentry _ he).2

/-- Entries are put in the order of the bytes of their keys, whatever form they
    were given in. -/
theorem shaped_map_of_normalizeWith
    (hc : ∀ {v raw}, normalizeWith (encode env) op c v = .ok raw → Shaped env (Ordered env) c raw)
    (hd : ∀ {v raw}, normalizeWith (encode env) op d v = .ok raw → Shaped env (Ordered env) d raw)
    (h : normalizeWith (encode env) op (.map c d) v = .ok raw) :
    Shaped env (Ordered env) (.map c d) raw := by
  simp only [normalizeWith, Except.bind_eq_ok, Except.pure_eq_ok, Except.mapError_eq_ok] at h
  obtain ⟨items, _, entries, hentries, sorted, hsorted, rfl⟩ := h
  have hentry : ∀ e ∈ entries, ∃ p, e.2 = Value.entry p ∧ encode env c p.1 = .ok e.1 ∧
      Shaped env (Ordered env) c p.1 ∧ Shaped env (Ordered env) d p.2 := by
    intro e he
    obtain ⟨_, item, _, hitem⟩ := exists_of_mem_traverseFrom hentries he
    simp only [Except.bind_eq_ok, Except.pure_eq_ok, Check.within_eq_ok] at hitem
    obtain ⟨key, hkey, value, hvalue, bs, hbs, rfl⟩ := hitem
    exact ⟨(key, value), rfl, hbs, hc hkey, hd hvalue⟩
  refine .map_of_items ?_ fun item hitem => ?_
  · refine exists_keys_of_sortUnique (fun e he => ?_) hsorted
    obtain ⟨p, hp, hbs, _⟩ := hentry e he
    exact ⟨p, hp, hbs⟩
  · obtain ⟨key, he⟩ := Order.mem_of_sortUnique hsorted hitem
    obtain ⟨p, hp, _, hshapes⟩ := hentry _ he
    exact ⟨p, hp, hshapes⟩

end Collections

mutual

theorem shaped_of_normalizeWith (hop : GivesShape env op) (c : Codec) (hc : DistinctNames env c)
    {v raw : Value} (h : normalizeWith (encode env) op c v = .ok raw) :
    Shaped env (Ordered env) c raw := by
  match c with
  | .int t =>
    simp only [normalizeWith, Except.bind_eq_ok, Except.pure_eq_ok] at h
    obtain ⟨n, hn, rfl⟩ := h
    obtain ⟨hlow, hhigh⟩ := Check.integer_bounds hn
    exact .int trivial hlow hhigh
  | .varint =>
    simp only [normalizeWith, Except.bind_eq_ok, Except.pure_eq_ok] at h
    obtain ⟨n, hn, rfl⟩ := h
    -- The bounds are those of 32 bits, so the number is a word.
    obtain ⟨hlow, hhigh⟩ := Check.integer_bounds hn
    obtain ⟨m, rfl⟩ := Check.exists_uint32 hlow hhigh
    exact .varint trivial
  | .bool =>
    simp only [normalizeWith, Except.bind_eq_ok, Except.pure_eq_ok] at h
    obtain ⟨b, _, rfl⟩ := h
    exact .bool trivial
  | .bytes size =>
    simp only [normalizeWith, Except.bind_eq_ok, Except.pure_eq_ok, Check.byteCount_eq_ok] at h
    obtain ⟨bs, _, _, ⟨rfl, hsize⟩, rfl⟩ := h
    exact .bytes trivial hsize
  | .string =>
    simp only [normalizeWith, Except.bind_eq_ok, Except.pure_eq_ok] at h
    obtain ⟨s, _, rfl⟩ := h
    exact .string trivial
  | .time =>
    simp only [normalizeWith, Except.bind_eq_ok, Except.pure_eq_ok] at h
    obtain ⟨n, hn, rfl⟩ := h
    obtain ⟨hlow, hhigh⟩ := Check.seconds_bounds hn
    obtain ⟨m, rfl⟩ := Check.exists_uint32 hlow hhigh
    exact .time trivial
  | .void =>
    simp only [normalizeWith] at h
    split at h
    · obtain rfl := Except.ok.inj h
      exact .void trivial
    · obtain rfl := Except.ok.inj h
      exact .void trivial
    · cases h
  | .vector c =>
    simp only [normalizeWith, Except.bind_eq_ok, Except.pure_eq_ok] at h
    obtain ⟨items, _, raws, hraws, rfl⟩ := h
    refine .vector trivial fun raw hraw => ?_
    obtain ⟨_, item, _, hitem⟩ := exists_of_mem_traverseFrom hraws hraw
    exact shaped_of_normalizeWith hop c (hc.inside .vector) (Check.within_eq_ok.1 hitem)
  | .set c =>
    exact shaped_set_of_normalizeWith (shaped_of_normalizeWith hop c (hc.inside .set)) h
  | .map c d =>
    exact shaped_map_of_normalizeWith (shaped_of_normalizeWith hop c (hc.inside .key))
      (shaped_of_normalizeWith hop d (hc.inside .value)) h
  | .optional c =>
    simp only [normalizeWith] at h
    split at h
    · obtain rfl := Except.ok.inj h
      exact .absent trivial
    · -- What is inside may itself be null, and then nothing is there.
      by_cases hnull : raw.isNull = true
      · obtain rfl := Value.isNull_iff.1 hnull
        exact .absent trivial
      · have hshape := shaped_of_normalizeWith hop c (hc.inside .optional) h
        exact .present trivial (by simpa using hnull) hshape
  | .pair c d =>
    simp only [normalizeWith, Except.bind_eq_ok, Except.pure_eq_ok, Check.within_eq_ok] at h
    obtain ⟨⟨a, b⟩, _, a', ha, b', hb, rfl⟩ := h
    exact .pair trivial (shaped_of_normalizeWith hop c (hc.inside .first) ha)
      (shaped_of_normalizeWith hop d (hc.inside .second) hb)
  | .variant label cases =>
    simp only [normalizeWith, Except.bind_eq_ok, Except.pure_eq_ok] at h
    obtain ⟨⟨t, payload⟩, _, tag, _, payload', hpayload, rfl⟩ := h
    obtain ⟨c, hcase, hshape⟩ := shaped_of_normalizeCase hop label tag cases
      (fun case hcase => hc.inside (.case hcase)) hpayload
    exact .variant trivial rfl hcase hshape
  | .struct fields ignoreUnknown =>
    simp only [normalizeWith, Except.bind_eq_ok, Except.pure_eq_ok] at h
    obtain ⟨record, _, _, _, raws, hraws, rfl⟩ := h
    -- With distinct names no field takes the place of another one.
    have hdistinct : (fields.map Prod.fst).Nodup := hc _ (.refl _)
    have hfields := shaped_of_normalizeFields hop fields (fun f hf => hc.inside (.field hf)) hraws
    have hkeys : raws.map Prod.fst = fields.map Prod.fst := hfields.keys_eq
    rw [Record.ofList_of_nodup (hkeys ▸ hdistinct)]
    exact .struct trivial hdistinct hfields.keys_eq fun f hf => hfields.field hdistinct hf
  | .objectId space type more =>
    simp only [normalizeWith, Except.bind_eq_ok, Except.pure_eq_ok, Check.objectId_eq_ok] at h
    obtain ⟨id, ⟨_, hspace, htype, hinst⟩, rfl⟩ := h
    exact .objectId trivial hspace htype hinst
  | .anyObjectId =>
    simp only [normalizeWith, Except.bind_eq_ok, Except.pure_eq_ok, Check.packed_eq_ok] at h
    obtain ⟨id, _, _, ⟨_, hinst⟩, rfl⟩ := h
    exact .anyObjectId trivial hinst
  | .publicKey scheme start =>
    simp only [normalizeWith, Except.bind_eq_ok, Except.pure_eq_ok] at h
    obtain ⟨point, hpoint, rfl⟩ := h
    exact .publicKey trivial (Check.check_of_publicKey hpoint)
  | .address scheme start =>
    simp only [normalizeWith, Except.bind_eq_ok, Except.pure_eq_ok] at h
    obtain ⟨a, ha, rfl⟩ := h
    obtain ⟨bs, hbs⟩ := Check.ofBytes_of_address ha
    exact .address trivial hbs
  | .operation link =>
    simp only [normalizeWith] at h
    exact hop link v raw hc h

theorem shaped_of_normalizeCase (hop : GivesShape env op) (label : String) (tag : UInt32)
    (cases : List (UInt32 × Codec)) (hcases : ∀ case ∈ cases, DistinctNames env case.2)
    {payload raw : Value} (h : normalizeCase (encode env) op label tag cases payload = .ok raw) :
    ∃ c, cases.lookup tag = some c ∧ Shaped env (Ordered env) c raw := by
  match cases with
  | [] =>
    simp only [normalizeCase, Check.fail_ne_ok] at h
  | (t, c) :: rest =>
    simp only [normalizeCase] at h
    split at h
    · rename_i ht
      refine ⟨c, by rw [ht, List.lookup_cons_self], ?_⟩
      exact shaped_of_normalizeWith hop c (hcases (t, c) (by simp)) (Check.within_eq_ok.1 h)
    · rename_i ht
      obtain ⟨c', hc', hshape⟩ := shaped_of_normalizeCase hop label tag rest
        (fun case hcase => hcases case (by simp [hcase])) h
      exact ⟨c', (lookup_cons_ne ht).trans hc', hshape⟩

theorem shaped_of_normalizeFields (hop : GivesShape env op) (fields : List (String × Codec))
    (hfields : ∀ f ∈ fields, DistinctNames env f.2) {record : Record Value}
    {raws : List (String × Value)}
    (h : normalizeFields (encode env) op fields record = .ok raws) :
    Value.FieldsOf (fun f => Shaped env (Ordered env) f.2) fields raws := by
  match fields with
  | [] =>
    simp only [normalizeFields] at h
    obtain rfl := Except.ok.inj h
    exact .nil
  | (name, c) :: rest =>
    simp only [normalizeFields, Except.bind_eq_ok, Except.pure_eq_ok, Check.within_eq_ok] at h
    obtain ⟨raw, hraw, raws', hraws', rfl⟩ := h
    refine .cons ⟨rfl, ?_⟩ (shaped_of_normalizeFields hop rest
      (fun f hf => hfields f (by simp [hf])) hraws')
    exact shaped_of_normalizeWith hop c (hfields (name, c) (by simp)) hraw

end

theorem givesShape_normalizeOperation (env : Registries) (fuel : Nat) :
    GivesShape env (normalizeOperation env fuel) := by
  induction fuel with
  | zero =>
    intro link v raw _ h
    cases h
  | succ fuel ih =>
    intro link v raw hc h
    simp only [normalizeOperation, Except.bind_eq_ok] at h
    obtain ⟨union, hunion, h⟩ := h
    obtain ⟨table, htable, rfl⟩ := Registries.unionOf_eq_ok.1 hunion
    -- An operation is normalized as the union of the table it finds.
    have hshape := shaped_of_normalizeWith ih _ (hc.union htable) h
    cases hshape with
    | variant _ htag hcase hpayload => exact .operation trivial htable htag hcase hpayload

theorem shaped_of_normalize {c : Codec} (hc : DistinctNames env c) {v raw : Value}
    (h : normalize env c v = .ok raw) : Shaped env (Ordered env) c raw :=
  shaped_of_normalizeWith
    (fun link w => givesShape_normalizeOperation env (w.arrayDepth + 1) link w) c hc h

/-- The types of ids belong to the codec, not to the value. -/
theorem shaped_tellsType_of_normalize {c : Codec} (hc : DistinctNames env c)
    (hsingle : SingleTyped env c) {v raw : Value} (h : normalize env c v = .ok raw) :
    Shaped env (fun d w => Ordered env d w ∧ d.TellsType) c raw := by
  have hordered := shaped_of_normalize hc h
  exact hordered.of_parts fun n d w hw => ⟨(hordered.part hw).holds, hsingle d hw.reaches⟩

end ChainCodec.Codec
