import ChainCodec.Proofs.JsonRoundTrip
import ChainCodec.Proofs.Rearrangement

/-! # Keys that have a text form

    A codec with a text form renders its canonical values as texts, and reads
    these texts as the values again; so different values have different texts.

    A map over such keys may be given as a record.  The record of the rendered
    entries, in any order, is the array of them for the codec, and either gives
    the map again exactly if the values are given again that were rendered. -/

namespace ChainCodec.Codec

variable {env : Registries} {P : Codec → Value → Prop} {c d : Codec} {k : Value} {t : String}

/-! ## Texts of keys -/

/-- There is nothing inside a codec that has a text form. -/
theorem eq_of_reaches_of_hasTextForm (h : c.hasTextForm = true) (hd : Reaches env c d) : d = c := by
  rcases Relation.ReflTransGen.cases_head hd with rfl | ⟨e, he, _⟩
  · rfl
  · cases he <;> cases h

theorem feesKept_of_hasTextForm (h : c.hasTextForm = true) : FeesKept env c := by
  intro link _ _ hreaches
  obtain rfl := eq_of_reaches_of_hasTextForm h hreaches
  cases h

/-- A text is read as the key that it was rendered for. -/
theorem normalize_text (h : c.hasTextForm = true) (hk : Shaped env (Ordered env) c k)
    (ht : render env c k = .ok (.str t)) : normalize env c (.str t) = .ok k :=
  normalize_render_of_feesKept (feesKept_of_hasTextForm h) hk ht

/-! ## Records of texts -/

theorem DistinctNames.map (hc : DistinctNames env c) (hd : DistinctNames env d) :
    DistinctNames env (.map c d) := by
  intro e he
  rcases Relation.ReflTransGen.cases_head he with rfl | ⟨f, hf, he⟩
  · exact List.nodup_nil
  · cases hf with
    | key => exact hc e he
    | value => exact hd e he

/-- The entries of a map are rendered as these. -/
def RenderedAs (env : Registries) (c d : Codec) (pairs : List (Value × Value))
    (entries : Record Json) : Prop :=
  List.Forall₂ (fun p e => render env c p.1 = .ok (.str e.1) ∧ render env d p.2 = .ok e.2)
    pairs entries

section Map

variable {pairs : List (Value × Value)} {entries : Record Json}

/-- Each text is read as the key of its pair. -/
theorem RenderedAs.normalize_keys (hc : c.hasTextForm = true)
    (hshape : Shaped env (Ordered env) (.map c d) (.array (pairs.map Value.entry)))
    (h : RenderedAs env c d pairs entries) :
    List.Forall₂ (fun p (e : String × Json) => normalize env c (.str e.1) = .ok p.1) pairs
      entries := by
  refine forall₂_imp_of_mem h fun p hp e he => ?_
  have hmem : Value.entry p ∈ pairs.map Value.entry := List.mem_map_of_mem hp
  exact normalize_text hc (hshape.child (.key hmem)) he.1

/-- The keys of a map have different bytes, so they have different texts. -/
theorem RenderedAs.nodup (hc : c.hasTextForm = true)
    (hshape : Shaped env (Ordered env) (.map c d) (.array (pairs.map Value.entry)))
    (h : RenderedAs env c d pairs entries) : (entries.map Prod.fst).Nodup := by
  obtain ⟨keys, hkeys, hascending⟩ := hshape.holds
  rw [List.forall₂_map_left_iff] at hkeys
  have hbytes : List.Forall₂ (fun t key => ∃ k, normalize env c (.str t) = .ok k ∧
      encode env c k = .ok key) (entries.map Prod.fst) keys := by
    rw [List.forall₂_map_left_iff]
    refine (forall₂_comp.2 ⟨pairs, (h.normalize_keys hc hshape).flip, hkeys⟩).imp fun e key hp => ?_
    obtain ⟨p, hnormal, q, hq, hkey⟩ := hp
    obtain rfl := Value.entry_injective hq
    exact ⟨p.1, hnormal, hkey⟩
  refine nodup_of_forall₂ (fun t key key' hk hk' => ?_) hbytes hascending.nodup
  obtain ⟨k, hnormal, hkey⟩ := hk
  obtain ⟨k', hnormal', hkey'⟩ := hk'
  obtain rfl := Except.ok.inj (hnormal.symm.trans hnormal')
  exact Except.ok.inj (hkey.symm.trans hkey')

end Map

end ChainCodec.Codec
