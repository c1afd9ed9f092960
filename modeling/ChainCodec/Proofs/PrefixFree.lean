import ChainCodec.Proofs.CanonicalSpelling
import ChainCodec.Proofs.Reading.Completeness

/-! # Spellings are prefix-free

    What is read from a buffer does not depend on the bytes behind it, so no
    spelling of a codec begins another one: of two buffers that begin alike,
    both give the same value after the same bytes.

    The encodings of canonical values are spellings.  They determine the
    value, however deep its unions nest, since the grammar has no limit of
    its own. -/

namespace ChainCodec.Codec

variable {env : Registries} {c : Codec} {j k : Nat} {as bs s t : Bytes} {v w : Value}

/-- Two spellings that begin the same bytes are the same, and spell the same
    value. -/
theorem Spells.prefixFree (hv : Spells env j c as v) (hw : Spells env k c bs w)
    (h : as ++ s = bs ++ t) : as = bs ∧ v = w := by
  -- One reader sees both of them, with room enough for either.
  let r : Reader := .withLimit (max j k) (as ++ s)
  have has : r.Before as := ⟨[], s, by simp [r, Reader.withLimit], rfl⟩
  have hbs : r.Before bs := ⟨[], t, by simp [r, Reader.withLimit, h], rfl⟩
  have hleft : read env c r = (.ok v, r.advance as.length) :=
    read_eq_of_spells hv has (Nat.le_max_left j k)
  have hright : read env c r = (.ok w, r.advance bs.length) :=
    read_eq_of_spells hw hbs (Nat.le_max_right j k)
  obtain ⟨hvalue, hreader⟩ := Prod.mk.inj (hleft.symm.trans hright)
  have hlength : as.length = bs.length := by
    have hcursor := congrArg Reader.cursor hreader
    simp only [Reader.advance] at hcursor
    omega
  exact ⟨(List.append_inj h hlength).1, Except.ok.inj hvalue⟩

/-- No bytes are deserialized together with a proper extension of them. -/
theorem deserialize_prefixFree (hv : deserialize env c as = .ok v)
    (hw : deserialize env c (as ++ s) = .ok w) : s = [] := by
  have hspells := deserialize_eq_ok_iff.1 hv
  have hspells' := deserialize_eq_ok_iff.1 hw
  obtain ⟨hsame, _⟩ := hspells.prefixFree hspells' (t := []) (List.append_nil _).symm
  exact List.append_right_eq_self.1 hsame.symm

/-- The encodings of two canonical values that begin the same bytes are the
    same, and so are the values. -/
theorem encode_prefixFree
    (hv : Shaped env (fun d w => Ordered env d w ∧ d.TellsType) c v)
    (hw : Shaped env (fun d w => Ordered env d w ∧ d.TellsType) c w)
    (has : encode env c v = .ok as) (hbs : encode env c w = .ok bs) (h : as ++ s = bs ++ t) :
    as = bs ∧ v = w :=
  (spells_of_encode hv (nestsWithin_arrayDepth env c v) has).prefixFree
    (spells_of_encode hw (nestsWithin_arrayDepth env c w) hbs) h

/-- So values with one encoding have one canonical value. -/
theorem normalize_eq_of_serialize (hnames : DistinctNames env c) (hsingle : SingleTyped env c)
    (hv : serialize env c v = .ok as) (hw : serialize env c w = .ok as) :
    normalize env c v = normalize env c w := by
  obtain ⟨x, hx, hencode⟩ := Except.bind_eq_ok.1 hv
  obtain ⟨y, hy, hencode'⟩ := Except.bind_eq_ok.1 hw
  obtain ⟨_, rfl⟩ := encode_prefixFree (shaped_tellsType_of_normalize hnames hsingle hx)
    (shaped_tellsType_of_normalize hnames hsingle hy) hencode hencode' (s := []) (t := []) rfl
  rw [hx, hy]

end ChainCodec.Codec
