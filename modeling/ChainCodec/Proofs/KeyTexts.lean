import ChainCodec.Codec.Normalize
import ChainCodec.Proofs.Identifiers

/-! # Keys and addresses have one text each

    Base58 leaves no choice: text that is read as bytes is what these bytes are
    written as.  A checksum is a function of the bytes before it, and a prefix is
    stripped as a whole, so the same holds for the texts of keys and addresses,
    whatever the prefix is made of.

    That what is written is read back is `PublicKey.parse_render` and
    `Address.parse_render`; here is the other direction. -/

namespace ChainCodec

/-! ## Base58 text -/

namespace Base58

variable {text : String} {bs : Bytes} {b : UInt8} {index d : Nat} {ds : List Nat}

theorem toNat_ofNat_ascii {n : Nat} (h : n < 128) : (Char.ofNat n).toNat = n := by
  have hvalid : n.isValidChar := .inl (by omega)
  rw [Char.ofNat, dif_pos hvalid]
  rfl

/-- A digit is read from the byte of its letter. -/
theorem eq_of_digitAt (h : digitAt index b = .ok d) :
    d < 58 ∧ b = UInt8.ofNat (alphabet.getD d '1').toNat := by
  unfold digitAt at h
  split at h
  · cases h
  · rename_i hascii
    have hlt : b.toNat < 128 := UInt8.lt_iff_toNat_lt.1 (UInt8.not_le.1 hascii)
    split at h
    · rename_i hindex
      obtain rfl := Except.ok.inj h
      obtain ⟨hd, hletter, _⟩ := List.idxOf?_eq_some_iff.1 hindex
      refine ⟨hd, ?_⟩
      rw [List.getD_eq_getElem?_getD, List.getElem?_eq_getElem hd, Option.getD_some, hletter,
        toNat_ofNat_ascii hlt, UInt8.ofNat_toNat]
    · cases h

theorem eq_of_digitsFrom (h : digitsFrom index bs = .ok ds) :
    (∀ d ∈ ds, d < 58) ∧ bs = ds.map fun d => UInt8.ofNat (alphabet.getD d '1').toNat := by
  induction bs generalizing index ds with
  | nil =>
    obtain rfl := Except.ok.inj h
    exact ⟨by simp, rfl⟩
  | cons b bs ih =>
    simp only [digitsFrom, Except.bind_eq_ok, Except.pure_eq_ok] at h
    obtain ⟨d, hd, ds, hds, rfl⟩ := h
    obtain ⟨hlt, hb⟩ := eq_of_digitAt hd
    obtain ⟨hrest, hbs⟩ := ih hds
    refine ⟨List.forall_mem_cons.2 ⟨hlt, hrest⟩, ?_⟩
    rw [List.map_cons, ← hb, ← hbs]

theorem encode_of_decode (h : decode text = .ok bs) : encode bs = text := by
  simp only [decode, Except.bind_eq_ok, Except.pure_eq_ok] at h
  obtain ⟨ds, hds, rfl⟩ := h
  obtain ⟨hlt, htext⟩ := eq_of_digitsFrom hds
  -- Back in base 58 the bytes are the digits that were read.
  have hbytes : ((rebase 58 256 ds).map UInt8.ofNat).map UInt8.toNat = rebase 58 256 ds := by
    rw [List.map_map]
    refine (List.map_congr_left fun n hn => ?_).trans (List.map_id _)
    exact UInt8.toNat_ofNat_of_lt' (mem_rebase_lt (by decide) hn)
  have hutf8 : (encode ((rebase 58 256 ds).map UInt8.ofNat)).toUTF8.data.toList =
      text.toUTF8.data.toList := by
    rw [encode, hbytes, rebase_rebase (by decide) (by decide) hlt, toUTF8_ofList_ascii,
      List.map_map, htext]
    · rfl
    · intro c hc
      obtain ⟨d, hd, rfl⟩ := List.mem_map.1 hc
      exact toNat_alphabet_lt d (hlt d hd)
  simp only [String.toUTF8_eq_toByteArray, Array.toList_inj] at hutf8
  exact String.toByteArray_inj.1 (ByteArray.ext hutf8)

theorem decode_eq_ok : decode text = .ok bs ↔ text = encode bs := by
  constructor
  · intro h
    exact (encode_of_decode h).symm
  · rintro rfl
    exact decode_encode bs

end Base58

theorem dropPrefix?_eq_some {start text body : String} :
    dropPrefix? start text = some body ↔ text = start ++ body := by
  constructor
  · intro h
    unfold dropPrefix? at h
    split at h
    · rename_i hprefix
      obtain rfl := Option.some.inj h
      obtain ⟨rest, hrest⟩ := List.isPrefixOf_iff_prefix.1 hprefix
      rw [← hrest, ← String.length_toList, List.drop_left]
      apply String.toList_inj.1
      rw [String.toList_append, String.toList_ofList, hrest]
    · cases h
  · rintro rfl
    exact dropPrefix?_append start body

/-! ## Keys -/

namespace PublicKey

variable {scheme : KeyScheme} {start text body : String} {data point : Bytes}

theorem bodyOf_eq_ok : bodyOf start text = .ok body ↔ text = start ++ body := by
  rw [← dropPrefix?_eq_some, bodyOf]
  cases dropPrefix? start text <;> simp

/-- The bytes of the text are those of the key and its checksum. -/
theorem render_of_unchecked (h : unchecked scheme text data = .ok point) :
    render scheme start point = start ++ Base58.encode data := by
  cases scheme with
  | ed25519 =>
    obtain rfl := Except.ok.inj h
    rfl
  | secp256k1 =>
    simp only [unchecked] at h
    split at h
    · cases h
    · split at h
      · rename_i hchecksum
        obtain rfl := Except.ok.inj h
        rw [render, ← hchecksum, List.take_append_drop]
      · cases h

/-- A key and a prefix have one text, and the text has one key. -/
theorem parse_eq_ok :
    parse scheme start text = .ok point ↔
      check scheme point = .ok () ∧ text = render scheme start point := by
  constructor
  · intro h
    simp only [parse, Except.bind_eq_ok, Except.mapError_eq_ok, Base58.decode_eq_ok, bodyOf_eq_ok,
      Except.pure_eq_ok] at h
    obtain ⟨_, rfl, data, rfl, _, hpoint, _, hcheck, rfl⟩ := h
    exact ⟨hcheck, (render_of_unchecked hpoint).symm⟩
  · rintro ⟨hcheck, rfl⟩
    exact parse_render start hcheck

end PublicKey

/-! ## Addresses -/

namespace Address

variable {scheme : AddressScheme} {start text body : String} {data bs : Bytes} {a : Address}

/-- The ways to come by an address. -/
inductive Built : Address → Prop
  | ofPublicKey (scheme : AddressScheme) (point : Bytes) : Built (ofPublicKey scheme point)
  | ofBytes {scheme : AddressScheme} {bs : Bytes} {a : Address} (h : ofBytes scheme bs = .ok a) :
      Built a
  | parse {scheme : AddressScheme} {start text : String} {a : Address}
      (h : parse scheme start text = .ok a) : Built a

theorem length_ptsChecksum (body : Bytes) : (ptsChecksum body).length = 4 := by
  have h : (doubleSha256 body).length = 32 := Sha256.length_digest _
  rw [ptsChecksum, List.length_take, h]
  rfl

theorem ofBytes_pts {body : Bytes} (h : body.length = ptsBodyLength) :
    Address.ofBytes .pts (body ++ ptsChecksum body) = .ok ⟨.pts, body ++ ptsChecksum body⟩ := by
  have hlength : (body ++ ptsChecksum body).length = AddressScheme.pts.byteLength := by
    rw [List.length_append, h, length_ptsChecksum]
    rfl
  have htake : (body ++ ptsChecksum body).take ptsBodyLength = body := by
    rw [← h, List.take_left]
  have hdrop : (body ++ ptsChecksum body).drop ptsBodyLength = ptsChecksum body := by
    rw [← h, List.drop_left]
  simp only [Address.ofBytes, hlength, htake, hdrop, ne_eq, not_true_eq_false, if_true, if_false]

/-- What is derived from a key has the bytes of an address. -/
theorem ofBytes_ofPublicKey (scheme : AddressScheme) (point : Bytes) :
    Address.ofBytes scheme (Address.ofPublicKey scheme point).bytes =
      .ok (Address.ofPublicKey scheme point) := by
  cases scheme with
  | graphene =>
    have hlength : (Ripemd160.digest (Sha512.digest point)).length =
        AddressScheme.graphene.byteLength := Ripemd160.length_digest _
    exact if_neg (not_not_intro hlength)
  | pts =>
    refine ofBytes_pts ?_
    rw [List.length_cons, Ripemd160.length_digest]
    rfl

theorem scheme_ofPublicKey (scheme : AddressScheme) (point : Bytes) :
    (Address.ofPublicKey scheme point).scheme = scheme := by
  cases scheme <;> rfl

/-- However an address was come by, its bytes are those of an address. -/
theorem built_iff : Built a ↔ Address.ofBytes a.scheme a.bytes = .ok a := by
  constructor
  · intro h
    have hbytes : ∀ {scheme bs}, Address.ofBytes scheme bs = .ok a →
        Address.ofBytes a.scheme a.bytes = .ok a := by
      intro scheme bs hbytes
      obtain ⟨rfl, _⟩ := bytes_of_ofBytes hbytes
      exact hbytes
    cases h with
    | ofPublicKey scheme point =>
      rw [scheme_ofPublicKey]
      exact ofBytes_ofPublicKey scheme point
    | ofBytes h => exact hbytes h
    | parse h =>
      obtain ⟨bs, hbs⟩ := ofBytes_of_parse h
      exact hbytes hbs
  · exact .ofBytes

theorem bodyOf_graphene_eq_ok : bodyOf .graphene start text = .ok body ↔ text = start ++ body := by
  rw [← dropPrefix?_eq_some, bodyOf]
  cases dropPrefix? start text <;> simp

/-- The bytes of the text of a Graphene address are its own and their checksum. -/
theorem eq_of_unchecked_graphene (h : unchecked .graphene text data = .ok bs) :
    data = bs ++ grapheneChecksum bs := by
  simp only [unchecked] at h
  split at h
  · cases h
  · split at h
    · rename_i hchecksum
      obtain rfl := Except.ok.inj h
      rw [← hchecksum, List.take_append_drop]
    · cases h

theorem render_of_parse (h : Address.parse scheme start text = .ok a) : text = a.render start := by
  simp only [Address.parse, Except.bind_eq_ok, Except.mapError_eq_ok, Base58.decode_eq_ok] at h
  obtain ⟨_, hbody, data, rfl, bs, hbytes, ha⟩ := h
  obtain ⟨rfl, _⟩ := bytes_of_ofBytes ha
  cases scheme with
  | pts =>
    obtain rfl := Except.ok.inj hbytes
    exact Except.ok.inj hbody
  | graphene =>
    obtain rfl := eq_of_unchecked_graphene hbytes
    exact bodyOf_graphene_eq_ok.1 hbody

/-- An address and a prefix have one text, and the text has one address. -/
theorem parse_eq_ok :
    Address.parse scheme start text = .ok a ↔
      a.scheme = scheme ∧ Built a ∧ text = a.render start := by
  constructor
  · intro h
    obtain ⟨bs, hbs⟩ := ofBytes_of_parse h
    exact ⟨congrArg Address.scheme (bytes_of_ofBytes hbs).1, .parse h, render_of_parse h⟩
  · rintro ⟨rfl, hbuilt, rfl⟩
    exact parse_render start (built_iff.1 hbuilt)

end Address

/-! ## Texts -/

namespace Codec

variable {env : Registries} {start text : String} {raw : Value}

theorem normalize_publicKey_str {scheme : KeyScheme} :
    normalize env (.publicKey scheme start) (.str text) = .ok raw ↔
      (∃ point, PublicKey.parse scheme start text = .ok point) ∧ raw = .str text := by
  have hcheck : ∀ point, Check.publicKey scheme start (Value.str text).resolve = .ok point ↔
      PublicKey.parse scheme start text = .ok point := fun _ => Except.mapError_eq_ok
  simp only [normalize, normalizeWith, Except.bind_eq_ok, Except.pure_eq_ok, hcheck]
  constructor
  · rintro ⟨point, hpoint, rfl⟩
    exact ⟨⟨point, hpoint⟩, congrArg Value.str (PublicKey.parse_eq_ok.1 hpoint).2.symm⟩
  · rintro ⟨⟨point, hpoint⟩, rfl⟩
    exact ⟨point, hpoint, congrArg Value.str (PublicKey.parse_eq_ok.1 hpoint).2.symm⟩

theorem normalize_address_str {scheme : AddressScheme} :
    normalize env (.address scheme start) (.str text) = .ok raw ↔
      (∃ a, Address.parse scheme start text = .ok a) ∧ raw = .str text := by
  have hcheck : ∀ a, Check.address scheme start (Value.str text).resolve = .ok a ↔
      Address.parse scheme start text = .ok a := fun _ => Except.mapError_eq_ok
  simp only [normalize, normalizeWith, Except.bind_eq_ok, Except.pure_eq_ok, hcheck]
  constructor
  · rintro ⟨a, ha, rfl⟩
    exact ⟨⟨a, ha⟩, congrArg Value.str (Address.render_of_parse ha).symm⟩
  · rintro ⟨⟨a, ha⟩, rfl⟩
    exact ⟨a, ha, congrArg Value.str (Address.render_of_parse ha).symm⟩

end Codec

/-- For each prefix, the keys of a scheme and the addresses of a scheme have one
    text each, the one that is written for them, and other texts are refused; so
    codecs leave the texts that they accept as they are. -/
theorem texts_of_keys_and_addresses (start text : String) :
    (∀ scheme point, PublicKey.parse scheme start text = .ok point ↔
      PublicKey.check scheme point = .ok () ∧ text = PublicKey.render scheme start point) ∧
    (∀ scheme a, Address.parse scheme start text = .ok a ↔
      a.scheme = scheme ∧ Address.Built a ∧ text = a.render start) ∧
    (∀ env scheme raw, Codec.normalize env (.publicKey scheme start) (.str text) = .ok raw ↔
      (∃ point, PublicKey.parse scheme start text = .ok point) ∧ raw = .str text) ∧
    ∀ env scheme raw, Codec.normalize env (.address scheme start) (.str text) = .ok raw ↔
      (∃ a, Address.parse scheme start text = .ok a) ∧ raw = .str text :=
  ⟨fun _ _ => PublicKey.parse_eq_ok, fun _ _ => Address.parse_eq_ok,
    fun _ _ _ => Codec.normalize_publicKey_str, fun _ _ _ => Codec.normalize_address_str⟩

end ChainCodec
