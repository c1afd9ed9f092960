import ChainCodec.Proofs.KeyTexts
import ChainCodec.Proofs.Reading.Completeness
import ChainCodec.Protocol

/-! # The bytes of PTS addresses

    A PTS address is made of a version, a digest of 20 bytes, and the first
    four bytes of the double SHA-256 of these 21.  Every way to come by one
    leaves bytes of this layout, and bytes of this layout are refused nowhere.

    The version is decided by keys only.  The checks of bytes, of texts and of
    the wire do not look at it, so what a chain with another version calls an
    address is taken for one here. -/

namespace ChainCodec

namespace Address

variable {start text : String} {bs digest : Bytes} {version : UInt8} {a : Address}

/-- There are 25 bytes, and the last four are the checksum of the first 21. -/
structure Sealed (bs : Bytes) : Prop where
  length : bs.length = 25
  checksum : bs.drop 21 = (doubleSha256 (bs.take 21)).take 4

/-- The first byte is the version of PTS addresses as well. -/
structure WellFormed (bs : Bytes) : Prop extends Sealed bs where
  version : bs.head? = some ptsVersion

theorem ofBytes_pts_eq_ok : Address.ofBytes .pts bs = .ok a ↔ a = ⟨.pts, bs⟩ ∧ Sealed bs := by
  constructor
  · intro h
    obtain ⟨rfl, hlength⟩ := bytes_of_ofBytes h
    simp only [Address.ofBytes] at h
    split at h
    · cases h
    · split at h
      · rename_i hchecksum
        exact ⟨rfl, hlength, hchecksum⟩
      · cases h
  · rintro ⟨rfl, hlength, hchecksum⟩
    have hlength' : ¬ bs.length ≠ AddressScheme.pts.byteLength := not_not_intro hlength
    have hchecksum' : bs.drop ptsBodyLength = ptsChecksum (bs.take ptsBodyLength) := hchecksum
    simp only [Address.ofBytes]
    rw [if_neg hlength', if_pos hchecksum']

/-- The version and the digest may be any bytes. -/
theorem sealed_of_digest (h : digest.length = 20) :
    Sealed (version :: digest ++ ptsChecksum (version :: digest)) := by
  have hbody : (version :: digest).length = ptsBodyLength := by
    rw [List.length_cons, h]
    rfl
  exact (ofBytes_pts_eq_ok.1 (ofBytes_pts hbody)).2

theorem Built.sealed (h : Built a) (hscheme : a.scheme = .pts) : Sealed a.bytes := by
  have hbytes := built_iff.1 h
  rw [hscheme] at hbytes
  exact (ofBytes_pts_eq_ok.1 hbytes).2

theorem wellFormed_ofPublicKey (point : Bytes) : WellFormed (Address.ofPublicKey .pts point).bytes :=
  ⟨(Built.ofPublicKey .pts point).sealed rfl, rfl⟩

/-- Nothing but the version can be amiss. -/
theorem Built.wellFormed_iff (h : Built a) (hscheme : a.scheme = .pts) :
    WellFormed a.bytes ↔ a.bytes.head? = some ptsVersion :=
  ⟨WellFormed.version, fun hversion => ⟨h.sealed hscheme, hversion⟩⟩

theorem parse_pts_eq_ok :
    Address.parse .pts start text = .ok a ↔
      ∃ bs, a = ⟨.pts, bs⟩ ∧ Sealed bs ∧ text = Base58.encode bs := by
  rw [parse_eq_ok]
  constructor
  · rintro ⟨hscheme, hbuilt, rfl⟩
    obtain ⟨scheme, bs⟩ := a
    obtain rfl : scheme = .pts := hscheme
    exact ⟨bs, rfl, hbuilt.sealed rfl, rfl⟩
  · rintro ⟨bs, rfl, hsealed, rfl⟩
    exact ⟨rfl, .ofBytes (ofBytes_pts_eq_ok.2 ⟨rfl, hsealed⟩), rfl⟩

end Address

/-! ## The wire -/

namespace Codec

variable {env : Registries} {k : Nat} {start : String} {bs : Bytes} {v : Value}

theorem spells_pts :
    Spells env k (.address .pts start) bs v ↔
      Address.Sealed bs ∧ v = .str (Base58.encode bs) := by
  constructor
  · intro h
    cases h with
    | address ha =>
      obtain ⟨rfl, hsealed⟩ := Address.ofBytes_pts_eq_ok.1 ha
      exact ⟨hsealed, rfl⟩
  · rintro ⟨hsealed, rfl⟩
    exact .address (Address.ofBytes_pts_eq_ok.2 ⟨rfl, hsealed⟩)

/-- The address is the first 25 of the bytes that are left. -/
theorem read_pts_eq_ok {r r' : Reader} (h : r.cursor ≤ r.data.size) :
    read env (.address .pts start) r = (.ok v, r') ↔
      ∃ bs, bs <+: r.rest ∧ Address.Sealed bs ∧ v = .str (Base58.encode bs) ∧
        r' = r.advance 25 := by
  have hsound (k : Nat) : Read.Sound k (fun bs v => Address.Sealed bs ∧ v = .str (Base58.encode bs))
      (read env (.address .pts start)) :=
    (read_sound env _ k).imp fun _ _ => spells_pts.1
  rw [Read.eq_ok_iff hsound (fun _ _ hbs => read_yields (spells_pts.2 hbs)) h]
  constructor
  · rintro ⟨bs, hprefix, ⟨hsealed, rfl⟩, rfl⟩
    rw [hsealed.length]
    exact ⟨bs, hprefix, hsealed, rfl, rfl⟩
  · rintro ⟨bs, hprefix, hsealed, rfl, rfl⟩
    rw [← hsealed.length]
    exact ⟨bs, hprefix, ⟨hsealed, rfl⟩, rfl⟩

end Codec

/-! ## However it was come by -/

namespace Address

/-- What is derived from a key is well formed.  Bytes, texts and what is on the
    wire are taken exactly if they are sealed, so whether an address is well
    formed depends on its first byte, and this may be any byte. -/
theorem pts_addresses_sealed (env : Registries) (start text : String) (point bs : Bytes)
    (a : Address) (r r' : Reader) (v : Value) (hcursor : r.cursor ≤ r.data.size) :
    WellFormed (ofPublicKey .pts point).bytes ∧
      (Address.ofBytes .pts bs = .ok a ↔ a = ⟨.pts, bs⟩ ∧ Sealed bs) ∧
      (Address.parse .pts start text = .ok a ↔
        ∃ bs, a = ⟨.pts, bs⟩ ∧ Sealed bs ∧ text = Base58.encode bs) ∧
      (Codec.read env (.address .pts start) r = (.ok v, r') ↔
        ∃ bs, bs <+: r.rest ∧ Sealed bs ∧ v = .str (Base58.encode bs) ∧ r' = r.advance 25) ∧
      (Built a → a.scheme = .pts →
        (WellFormed a.bytes ↔ a.bytes.head? = some ptsVersion)) ∧
      ∀ version digest, digest.length = 20 →
        Sealed (version :: digest ++ ptsChecksum (version :: digest)) :=
  ⟨wellFormed_ofPublicKey point, ofBytes_pts_eq_ok, parse_pts_eq_ok, Codec.read_pts_eq_ok hcursor,
    Built.wellFormed_iff, fun _ _ => sealed_of_digest⟩

/-- The address of a key whose bytes are all 2. -/
def ofTwos : Address := ofPublicKey .pts (List.replicate 33 2)

theorem pts_addresses_sealed_ofTwos :
    (Reader.ofBytes ofTwos.bytes).cursor ≤ (Reader.ofBytes ofTwos.bytes).data.size ∧
      Built ofTwos ∧ ofTwos.scheme = .pts ∧ WellFormed ofTwos.bytes ∧
      Address.ofBytes .pts ofTwos.bytes = .ok ofTwos ∧
      Address.parse .pts "" (Base58.encode ofTwos.bytes) = .ok ofTwos ∧
      Codec.read .live Schema.ptsAddress (.ofBytes ofTwos.bytes) =
        (.ok (.str (Base58.encode ofTwos.bytes)), (Reader.ofBytes ofTwos.bytes).advance 25) ∧
      Sealed (0 :: List.replicate 20 0 ++ ptsChecksum (0 :: List.replicate 20 0)) := by
  have hcursor : (Reader.ofBytes ofTwos.bytes).cursor ≤ (Reader.ofBytes ofTwos.bytes).data.size :=
    Nat.zero_le _
  have hprefix : ofTwos.bytes <+: (Reader.ofBytes ofTwos.bytes).rest := by
    rw [Reader.rest_eq_drop]
    exact ⟨[], List.append_nil _⟩
  have hbuilt : Built ofTwos := .ofPublicKey .pts _
  obtain ⟨hkey, hbytes, htext, hwire, hversion, hdigest⟩ :=
    pts_addresses_sealed .live "" (Base58.encode ofTwos.bytes) (List.replicate 33 2) ofTwos.bytes
      ofTwos (.ofBytes ofTwos.bytes) ((Reader.ofBytes ofTwos.bytes).advance 25)
      (.str (Base58.encode ofTwos.bytes)) hcursor
  have hsealed : Sealed ofTwos.bytes := hkey.toSealed
  exact ⟨hcursor, hbuilt, rfl, (hversion hbuilt rfl).2 hkey.version, hbytes.2 ⟨rfl, hsealed⟩,
    htext.2 ⟨_, rfl, hsealed, rfl⟩, hwire.2 ⟨_, hprefix, hsealed, rfl, rfl⟩, hdigest 0 _ rfl⟩

/-- A digest of zeros under version 0, with its checksum. -/
def zeroVersion : Bytes := List.replicate 21 0 ++ [0x94, 0xA0, 0x09, 0x11]

theorem sealed_zeroVersion : Sealed zeroVersion := ⟨rfl, by decide +kernel⟩

theorem encode_zeroVersion : Base58.encode zeroVersion = "1111111111111111111114oLvT2" := by
  decide +kernel

/-- The version is the one of another chain, and the address is taken from
    bytes, from the text and from the wire. -/
theorem ptsVersion_unchecked :
    zeroVersion.head? = some 0 ∧ ptsVersion ≠ 0 ∧
      Address.ofBytes .pts zeroVersion = .ok ⟨.pts, zeroVersion⟩ ∧
      Address.parse .pts "" "1111111111111111111114oLvT2" = .ok ⟨.pts, zeroVersion⟩ ∧
      Codec.deserialize .live Schema.ptsAddress zeroVersion =
        .ok (.str "1111111111111111111114oLvT2") := by
  refine ⟨rfl, by decide, ofBytes_pts_eq_ok.2 ⟨rfl, sealed_zeroVersion⟩, ?_, ?_⟩
  · exact parse_pts_eq_ok.2 ⟨_, rfl, sealed_zeroVersion, encode_zeroVersion.symm⟩
  · exact Codec.deserialize_eq_ok_iff.2
      (Codec.spells_pts.2 ⟨sealed_zeroVersion, congrArg Value.str encode_zeroVersion.symm⟩)

end Address

end ChainCodec
