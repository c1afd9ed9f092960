import ChainCodec.Proofs.Reach
import ChainCodec.Proofs.Sources

/-! # What normalization visits

    Normalization goes from a value into its sources, and from these into
    theirs, until it comes to scalars.  It visits an operation wherever an
    operation codec comes up on the way.

    There is no end to an operation codec, but there is one to the value:
    `Source.induction`. -/

namespace ChainCodec.Codec

variable {env : Registries} {c d e : Codec} {u v w raw : Value}

/-! ## Induction on sources -/

theorem Source.inside (h : Source env c v d u) : Inside env c d := by
  cases h with
  | item _ _ => exact .vector
  | element _ _ => exact .set
  | key _ _ => exact .key
  | value _ _ => exact .value
  | present _ => exact .optional
  | first _ => exact .first
  | second _ => exact .second
  | payload _ _ hcase => exact .case (mem_of_lookup hcase)
  | field _ hf => exact .field hf
  | operand _ htable _ hcase => exact .operation htable (mem_of_lookup hcase)

/-- A source has a smaller codec, or nests less deep. -/
theorem Source.smaller (h : Source env c v d u) :
    u.arrayDepth < v.arrayDepth ∨ sizeOf d < sizeOf c := by
  have hinside := h.inside
  cases h with
  | @operand link _ _ _ _ _ _ hv _ _ _ =>
    -- The table may have codecs of any size, but the operation is an array.
    left
    have hpayload := Value.arrayDepth_lt_of_asPair? hv
    have hinput := arrayDepth_operationInput_le link v
    rw [Value.arrayDepth_resolve] at hpayload
    omega
  | item | element | key | value | present | first | second | payload | field =>
    exact .inr (hinside.sizeOf_lt fun _ => nofun)

/-- What holds of a value wherever it holds of its sources holds of all
    values. -/
theorem Source.induction (env : Registries) {P : Codec → Value → Prop}
    (h : ∀ c v, (∀ d u, Source env c v d u → P d u) → P c v) (c : Codec) (v : Value) : P c v := by
  apply h
  intro d u hu
  exact Source.induction env h d u
termination_by (v.arrayDepth, sizeOf c)
decreasing_by
  have hle := hu.arrayDepth_le
  rcases hu.smaller with hlt | hlt
  · exact Prod.Lex.left _ _ hlt
  · rcases Nat.lt_or_eq_of_le hle with hlt' | heq
    · exact Prod.Lex.left _ _ hlt'
    · rw [heq]
      exact Prod.Lex.right _ hlt

/-! ## Visits -/

/-- Any number of steps from an input into its parts. -/
inductive Visits (env : Registries) : Codec → Value → Codec → Value → Prop
  | self {c : Codec} {v : Value} : Visits env c v c v
  | step {c d e : Codec} {v u w : Value} (h : Source env c v d u) (h' : Visits env d u e w) :
      Visits env c v e w

theorem Visits.reaches (h : Visits env c v d u) : Reaches env c d := by
  induction h with
  | self => exact .refl _
  | step hu _ ih => exact .head hu.inside ih

/-- A value that has a canonical value has one for each source. -/
theorem Source.accepted (h : Source env c v d u) (hv : normalize env c v = .ok raw) :
    ∃ w, normalize env d u = .ok w := by
  cases h with
  | item hitems hmem =>
    obtain ⟨items, raws, hitems', hraws, _⟩ := normalize_vector_eq_ok.1 hv
    cases hitems.symm.trans hitems'
    obtain ⟨w, _, hw⟩ := forall₂_mem_left hraws hmem
    exact ⟨w, hw⟩
  | element hitems hmem =>
    obtain ⟨items, entries, _, hitems', hentries, _⟩ := normalize_set_eq_ok.1 hv
    cases hitems.symm.trans hitems'
    obtain ⟨e, _, hw, _⟩ := forall₂_mem_left hentries hmem
    exact ⟨e.2, hw⟩
  | key hpairs hmem =>
    obtain ⟨pairs, entries, _, hpairs', hentries, _⟩ := normalize_map_eq_ok.1 hv
    cases hpairs.symm.trans hpairs'
    obtain ⟨_, _, q, hkey, _⟩ := forall₂_mem_left hentries hmem
    exact ⟨q.1, hkey⟩
  | value hpairs hmem =>
    obtain ⟨pairs, entries, _, hpairs', hentries, _⟩ := normalize_map_eq_ok.1 hv
    cases hpairs.symm.trans hpairs'
    obtain ⟨_, _, q, _, hvalue, _⟩ := forall₂_mem_left hentries hmem
    exact ⟨q.2, hvalue⟩
  | present hnull =>
    rw [normalize_optional, if_neg (by simp [hnull])] at hv
    exact ⟨raw, hv⟩
  | first hpair =>
    obtain ⟨a, b, a', b', hpair', ha, _, _⟩ := normalize_pair_eq_ok.1 hv
    cases hpair.symm.trans hpair'
    exact ⟨a', ha⟩
  | second hpair =>
    obtain ⟨a, b, a', b', hpair', _, hb, _⟩ := normalize_pair_eq_ok.1 hv
    cases hpair.symm.trans hpair'
    exact ⟨b', hb⟩
  | payload hpair htag hcase =>
    obtain ⟨t, payload, tag, c, w, hpair', htag', hcase', hw, _⟩ := normalize_variant_eq_ok.1 hv
    cases hpair.symm.trans hpair'
    cases htag.symm.trans htag'
    cases hcase.symm.trans hcase'
    exact ⟨w, hw⟩
  | field hrecord hf =>
    -- A field that is named twice is normalized twice.
    simp only [normalize, normalizeWith, Except.bind_eq_ok, Check.object_eq_ok] at hv
    obtain ⟨record, hrecord', _, _, raws, hraws, _⟩ := hv
    cases hrecord.symm.trans hrecord'
    obtain ⟨f', _, _, hw⟩ := forall₂_mem_left (normalizeFields_eq_ok.1 hraws) hf
    exact ⟨f'.2, hw⟩
  | operand hpair htable htag hcase =>
    obtain ⟨table, htable', hv⟩ := normalize_operation_eq_ok.1 hv
    cases htable.symm.trans htable'
    obtain ⟨t, payload, tag, c, w, hpair', htag', hcase', hw, _⟩ := normalize_variant_eq_ok.1 hv
    cases hpair.symm.trans hpair'
    cases htag.symm.trans htag'
    cases hcase.symm.trans hcase'
    exact ⟨w, hw⟩

theorem Visits.accepted (h : Visits env c v d u) (hv : normalize env c v = .ok raw) :
    ∃ w, normalize env d u = .ok w := by
  induction h generalizing raw with
  | self => exact ⟨raw, hv⟩
  | step hu _ ih =>
    obtain ⟨w, hw⟩ := hu.accepted hv
    exact ih hw

end ChainCodec.Codec
