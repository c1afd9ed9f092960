import ChainCodec.Proofs.Idempotence
import ChainCodec.Proofs.Rearrangement

/-! # The order of inputs does not show

    Inputs that differ in order only have the same canonical value, and so
    the same bytes.  In these bytes, those of the elements of a set and of the
    entries of a map stand one after the other in the order of the elements or
    keys, at any depth. -/

namespace ChainCodec.Codec

variable {env : Registries} {P : Codec → Value → Prop} {c d : Codec} {v w raw x : Value}
  {b : Bytes} {k n : Nat}

/-! ## Bytes of parts -/

/-- What stands in the bytes stands in them behind others, too. -/
theorem infix_behind {bs b : Bytes} (as : Bytes) (h : bs <:+: b) : bs <:+: as ++ b :=
  h.trans (List.suffix_append as b).isInfix

theorem exists_infix_of_forall₂ {α : Type} {R : α → Bytes → Prop} {as : List α}
    {parts : List Bytes} (h : List.Forall₂ R as parts) {a : α} (ha : a ∈ as) :
    ∃ bs, R a bs ∧ bs <:+: parts.flatten := by
  obtain ⟨bs, hbs, hR⟩ := forall₂_mem_left h ha
  exact ⟨bs, hR, List.infix_of_mem_flatten hbs⟩

/-- The bytes of an entry of a map, of its key first. -/
theorem exists_infix_of_entry {items : List Value} {p : Value × Value}
    (hshape : Shaped env P (.map c d) (.array items)) (hp : Value.entry p ∈ items)
    (h : encode env (.map c d) (.array items) = .ok b) :
    ∃ q : Bytes × Bytes, encode env c p.1 = .ok q.1 ∧ encode env d p.2 = .ok q.2 ∧
      q.1 ++ q.2 <:+: b := by
  cases hshape with
  | map _ hpairs _ _ =>
    subst hpairs
    obtain ⟨p', hp', he⟩ := List.mem_map.1 hp
    obtain rfl := Value.entry_injective he
    obtain ⟨_, parts, hparts, rfl⟩ := encode_map_eq_ok.1 h
    obtain ⟨q, hq, hkey, hvalue⟩ := forall₂_mem_left hparts hp'
    refine ⟨q, hkey, hvalue, infix_behind _ ?_⟩
    exact List.infix_of_mem_flatten (List.mem_map_of_mem hq)

/-- The bytes of a part stand in those of the whole. -/
theorem exists_infix_of_child (hshape : Shaped env P c raw) (hx : Child env c raw k d x)
    (h : encode env c raw = .ok b) : ∃ bs, encode env d x = .ok bs ∧ bs <:+: b := by
  cases hx with
  | item hmem =>
    obtain ⟨_, parts, hparts, rfl⟩ := encode_vector_eq_ok.1 h
    obtain ⟨bs, hbs, hstands⟩ := exists_infix_of_forall₂ hparts hmem
    exact ⟨bs, hbs, infix_behind _ hstands⟩
  | element hmem =>
    obtain ⟨_, parts, hparts, rfl⟩ := encode_set_eq_ok.1 h
    obtain ⟨bs, hbs, hstands⟩ := exists_infix_of_forall₂ hparts hmem
    exact ⟨bs, hbs, infix_behind _ hstands⟩
  | key hmem =>
    obtain ⟨q, hkey, _, hstands⟩ := exists_infix_of_entry hshape hmem h
    exact ⟨q.1, hkey, (List.prefix_append q.1 q.2).isInfix.trans hstands⟩
  | value hmem =>
    obtain ⟨q, _, hvalue, hstands⟩ := exists_infix_of_entry hshape hmem h
    exact ⟨q.2, hvalue, (List.suffix_append q.1 q.2).isInfix.trans hstands⟩
  | present hnull =>
    obtain ⟨bs, hbs, rfl⟩ := (encode_optional_eq_ok hnull).1 h
    exact ⟨bs, hbs, infix_behind [1] List.infix_rfl⟩
  | first =>
    obtain ⟨as, bs, has, _, rfl⟩ := encode_pair_eq_ok.1 h
    exact ⟨as, has, (List.prefix_append as bs).isInfix⟩
  | second =>
    obtain ⟨as, bs, _, hbs, rfl⟩ := encode_pair_eq_ok.1 h
    exact ⟨bs, hbs, (List.suffix_append as bs).isInfix⟩
  | payload htag hcase =>
    subst htag
    obtain ⟨bs, hbs, rfl⟩ := (encode_variant_eq_ok hcase).1 h
    exact ⟨bs, hbs, infix_behind _ List.infix_rfl⟩
  | field hmem =>
    obtain ⟨parts, hparts, rfl⟩ := encode_struct_eq_ok.1 h
    exact exists_infix_of_forall₂ hparts hmem
  | operand htable htag hcase =>
    subst htag
    obtain ⟨bs, hbs, rfl⟩ := (encode_operation_eq_ok htable hcase).1 h
    exact ⟨bs, hbs, infix_behind _ List.infix_rfl⟩

theorem exists_infix_of_part (hshape : Shaped env P c raw) (hx : Part env c raw n d x)
    (h : encode env c raw = .ok b) : ∃ bs, encode env d x = .ok bs ∧ bs <:+: b := by
  induction hx generalizing b with
  | self => exact ⟨b, h, List.infix_rfl⟩
  | step hchild _ ih =>
    obtain ⟨bs, hbs, hstands⟩ := exists_infix_of_child hshape hchild h
    obtain ⟨bs', hbs', hstands'⟩ := ih (hshape.child hchild) hbs
    exact ⟨bs', hbs', hstands'.trans hstands⟩

/-! ## Order in the bytes -/

/-- The bytes of the elements of a set, or of the entries of a map, stand in
    the given ones in strictly ascending order: the elements by their own
    bytes, the entries by those of their keys. -/
def StandsOrdered (env : Registries) (b : Bytes) : Codec → Value → Prop
  | .set c, .array items =>
      ∃ parts, List.Forall₂ (fun item bs => encode env c item = .ok bs) items parts ∧
        Order.Ascending parts ∧ parts.flatten <:+: b
  | .map c d, .array items =>
      ∃ parts : List (Bytes × Bytes),
        List.Forall₂ (fun item q => ∃ p, item = Value.entry p ∧ encode env c p.1 = .ok q.1 ∧
          encode env d p.2 = .ok q.2) items parts ∧
        Order.Ascending (parts.map Prod.fst) ∧ (parts.flatMap fun q => q.1 ++ q.2) <:+: b
  | _, _ => True

theorem standsOrdered_of_ordered {bs : Bytes} (hshape : Shaped env (Ordered env) d x)
    (h : encode env d x = .ok bs) (hstands : bs <:+: b) : StandsOrdered env b d x := by
  cases hshape with
  | set hordered _ =>
    obtain ⟨_, parts, hparts, rfl⟩ := encode_set_eq_ok.1 h
    obtain ⟨keys, hkeys, hascending⟩ := hordered
    obtain rfl := rightUnique_encode.forall₂ hkeys hparts
    exact ⟨keys, hkeys, hascending, (infix_behind _ List.infix_rfl).trans hstands⟩
  | @map c d _ pairs hordered hpairs _ _ =>
    subst hpairs
    obtain ⟨_, parts, hparts, rfl⟩ := encode_map_eq_ok.1 h
    obtain ⟨keys, hkeys, hascending⟩ := hordered
    -- The keys that the entries are ordered by are the ones in the bytes.
    have hwritten : List.Forall₂
        (fun item bs => ∃ p, item = Value.entry p ∧ encode env c p.1 = .ok bs)
        (pairs.map Value.entry) (parts.map Prod.fst) := by
      rw [List.forall₂_map_left_iff, List.forall₂_map_right_iff]
      exact hparts.imp fun p q hq => ⟨p, rfl, hq.1⟩
    obtain rfl := rightUnique_encode_key.forall₂ hkeys hwritten
    refine ⟨parts, ?_, hascending, (infix_behind _ List.infix_rfl).trans hstands⟩
    rw [List.forall₂_map_left_iff]
    exact hparts.imp fun p q hq => ⟨p, rfl, hq⟩
  | _ => trivial

/-! ## Order of inputs -/

/-- Inputs that differ in order only are accepted together, and then have the
    same canonical value and the same bytes.  There are bytes unless something
    is longer than 32 bits can count, and all sets and maps stand in them in
    strictly ascending order. -/
theorem normalize_rearranged (hnames : DistinctNames env c) (h : Rearranged env (some c) v w) :
    (∀ raw, normalize env c v = .ok raw ↔ normalize env c w = .ok raw) ∧
      ∀ raw, normalize env c v = .ok raw →
        serialize env c w = serialize env c v ∧
        ((∀ n d x, Part env c raw n d x → Fits d x) →
          ∃ b, serialize env c v = .ok b ∧
            ∀ n d x, Part env c raw n d x → StandsOrdered env b d x) := by
  have hsame : SameNormal env c v w :=
    (alike_of_rearranged h).sameNormal (mayLook_of_eq rfl) hnames
  refine ⟨hsame, fun raw hraw => ⟨?_, fun hfits => ?_⟩⟩
  · rw [serialize_of_normalize hraw, serialize_of_normalize ((hsame raw).1 hraw)]
  · have hshape := shaped_of_normalize hnames hraw
    obtain ⟨b, hb⟩ := (exists_encode_iff hshape).2 (hshape.of_parts hfits)
    refine ⟨b, (serialize_of_normalize hraw).trans hb, fun n d x hx => ?_⟩
    obtain ⟨bs, hbs, hstands⟩ := exists_infix_of_part hshape hx hb
    exact standsOrdered_of_ordered (hshape.part hx) hbs hstands

/-- The fields of an aggregation whose fee is null, each in two orders. -/
def aggregationFields : Record (Value × Value) :=
  let same (v : Value) := (v, v)
  [("fee", same .null),
   ("committee_member_id", same (.str "1.2.5")),
   ("transaction_id", same (.bytes (List.replicate 32 0))),
   ("deposits", (.array [.int 300, .int 7], .array [.int 7, .int 300])),
   ("withdrawals", same (.array [])),
   ("aggregation_out_value", same (.int 1)),
   ("sma_address", same (.str "a")),
   ("committee_member_ins", (.object [("1.2.300", .str "b"), ("1.2.7", .str "c")],
      .object [("1.2.7", .str "c"), ("1.2.300", .str "b")])),
   ("cpfp_depth", same (.int 0)),
   ("signatures", (.array [.array [.int 2, .str "d"], .array [.int 1, .str "e"]],
      .array [.array [.int 1, .str "e"], .array [.int 2, .str "d"]]))]

def aggregation : Value :=
  .array [.int OperationId.sidechainBtcAggregate.code.toNat,
    .object (Record.mapValues Prod.fst aggregationFields)]

/-- The same aggregation, and its keys in the opposite order. -/
def reorderedAggregation : Value :=
  .array [.int OperationId.sidechainBtcAggregate.code.toNat,
    .object (Record.mapValues Prod.snd aggregationFields).reverse]

theorem rearranged_aggregation :
    Rearranged .live (some (Protocol.feeEstimatingOperation {})) aggregation
      reorderedAggregation := by
  have hcase : (some (Protocol.feeEstimatingOperation {})).bind
      (second? .live (.int OperationId.sidechainBtcAggregate.code.toNat)) =
        some (Protocol.operationFields {} .sidechainBtcAggregate) := by
    cbv
  -- The elements of the deposits and the entries of both maps move.
  have hfields : ∀ p ∈ aggregationFields, Rearranged .live
      ((some (Protocol.operationFields {} .sidechainBtcAggregate)).bind (named? p.1))
      p.2.1 p.2.2 := by
    simp only [aggregationFields, List.forall_mem_cons]
    exact ⟨.refl _, .refl _, .refl _,
      .elements (c := .set (protocolId .btcDeposit)) rfl (.swap _ _ _),
      .refl _, .refl _, .refl _, .keys (by decide) (.swap _ _ _), .refl _,
      .elements (c := .map u32 .string) rfl (.swap _ _ _), List.forall_mem_nil _⟩
  refine .pair (.refl _) ?_
  rw [hcase]
  exact .trans (.fields hfields) (.keys (by decide) (List.reverse_perm _).symm)

/-- The canonical value of both. -/
def canonicalAggregation : Value :=
  .array [.int OperationId.sidechainBtcAggregate.code.toNat, .object [
    ("fee", .object [("amount", .int 0), ("asset_id", .str "1.3.0")]),
    ("committee_member_id", .str "1.2.5"),
    ("transaction_id", .bytes (List.replicate 32 0)),
    ("deposits", .array [.str "1.21.7", .str "1.21.300"]),
    ("withdrawals", .array []),
    ("aggregation_out_value", .int 1),
    ("sma_address", .str "a"),
    ("committee_member_ins", .array [.array [.str "1.2.7", .str "c"],
      .array [.str "1.2.300", .str "b"]]),
    ("previous_aggregation", .null),
    ("cpfp_depth", .int 0),
    ("signatures", .array [.array [.int 1, .str "e"], .array [.int 2, .str "d"]]),
    ("extensions", .array [])]]

theorem normalize_aggregation :
    normalize .live (Protocol.feeEstimatingOperation {}) aggregation =
      .ok canonicalAggregation := by
  cbv

def aggregationBytes : Bytes :=
  [62, 0, 0, 0, 0, 0, 0, 0, 0, 0, 5] ++ List.replicate 32 0 ++
    [2, 7, 172, 2] ++ [0] ++ [1, 0, 0, 0, 0, 0, 0, 0, 1, 97] ++
    [2, 7, 1, 99, 172, 2, 1, 98] ++ [0, 0] ++
    [2, 1, 0, 0, 0, 1, 101, 2, 0, 0, 0, 1, 100] ++ [0]

theorem encode_canonicalAggregation :
    encode .live (Protocol.feeEstimatingOperation {}) canonicalAggregation =
      .ok aggregationBytes := by
  cbv

theorem normalize_rearranged_aggregation :
    normalize .live (Protocol.feeEstimatingOperation {}) reorderedAggregation =
        .ok canonicalAggregation ∧
      serialize .live (Protocol.feeEstimatingOperation {}) reorderedAggregation =
        .ok aggregationBytes ∧
      ∀ n d x, Part .live (Protocol.feeEstimatingOperation {}) canonicalAggregation n d x →
        StandsOrdered .live aggregationBytes d x := by
  have hmem : ("operation_unrequired_fee", Protocol.feeEstimatingOperation {}) ∈
      Protocol.codecs {} := by simp [Protocol.codecs]
  have hnames := Protocol.distinctNames_of_mem_codecs {} hmem
  obtain ⟨hsame, hbytes⟩ := normalize_rearranged hnames rearranged_aggregation
  obtain ⟨heq, hordered⟩ := hbytes _ normalize_aggregation
  have hserialize :=
    (serialize_of_normalize normalize_aggregation).trans encode_canonicalAggregation
  -- What has bytes fits.
  have hfits := (exists_encode_iff (shaped_of_normalize hnames normalize_aggregation)).1
    ⟨_, encode_canonicalAggregation⟩
  obtain ⟨b, hb, hparts⟩ := hordered fun n d x hx => (hfits.part hx).holds
  obtain rfl := Except.ok.inj (hb.symm.trans hserialize)
  exact ⟨(hsame _).1 normalize_aggregation, heq.trans hb, hparts⟩

end ChainCodec.Codec
