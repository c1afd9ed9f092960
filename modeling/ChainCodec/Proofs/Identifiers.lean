import ChainCodec.Chain.Address
import ChainCodec.Chain.ObjectId
import ChainCodec.Proofs.Text

/-! # Ids, keys and addresses are read back

    Each has a text that is read as what it was written for.  A key or an
    address of secp256k1 or Graphene carries a checksum in its text only, so
    reading recomputes the checksum that writing appended; which digest it is
    does not matter, only that it is taken of the same bytes. -/

namespace ChainCodec

/-! ## Object ids -/

namespace ObjectId

theorem splitDots_of_not_mem {cs : List Char} (h : '.' ∉ cs) : splitDots cs = [cs] := by
  induction cs with
  | nil => rfl
  | cons c cs ih =>
    simp only [List.mem_cons, not_or] at h
    rw [splitDots.eq_3 _ _ fun e => h.1 e.symm, ih h.2]

theorem splitDots_append {cs rest : List Char} (h : '.' ∉ cs) :
    splitDots (cs ++ '.' :: rest) = cs :: splitDots rest := by
  induction cs with
  | nil => rfl
  | cons c cs ih =>
    simp only [List.mem_cons, not_or] at h
    rw [List.cons_append, splitDots.eq_3 _ _ fun e => h.1 e.symm, ih h.2]

theorem not_dot_mem_renderNat (n : Nat) : '.' ∉ Decimal.renderNat n := by
  intro h
  have := Decimal.isDigit_of_mem_renderNat h
  cases this

theorem part?_renderNat {limit n : Nat} (h : n < limit) (hlimit : limit ≤ UInt64.size) :
    part? limit (String.ofList (Decimal.renderNat n)) = some n := by
  -- The part is decimal text, which is read for all numbers of 128 bits.
  have hgreatest : (UInt64.size : Int) ≤ Decimal.greatest := by decide
  have hleast : Decimal.least ≤ 0 := by decide
  have hrender : String.ofList (Decimal.renderNat n) = Decimal.render n := by
    rw [Decimal.render, if_neg (by omega), Int.natAbs_natCast]
  have hparse : Decimal.parse (Decimal.render n) = .ok (.ofNat n) :=
    Decimal.parse_render (by omega) (by omega)
  rw [part?, hrender, hparse]
  simp only [h, if_true]

theorem toList_render (id : ObjectId) :
    id.render.toList = Decimal.renderNat id.space.toNat ++ '.' ::
      (Decimal.renderNat id.type.toNat ++ '.' :: Decimal.renderNat id.inst.toNat) := by
  have hpart (n : Nat) : (Decimal.render n).toList = Decimal.renderNat n := by
    rw [Decimal.toList_render_of_nonneg (by omega), Int.natAbs_natCast]
  have hdot : ".".toList = ['.'] := rfl
  simp only [render, String.toList_append, hpart, hdot, List.append_assoc, List.cons_append,
    List.nil_append]

theorem contains_dot_render (id : ObjectId) : id.render.toList.contains '.' = true := by
  rw [toList_render]
  simp

/-- The text of an id is read as the id. -/
theorem parse_render (id : ObjectId) : parse id.render = .ok id := by
  -- Digits are no dots, so the text splits into its three parts.
  have hsplit : splitDots id.render.toList =
      [Decimal.renderNat id.space.toNat, Decimal.renderNat id.type.toNat,
        Decimal.renderNat id.inst.toNat] := by
    rw [toList_render, splitDots_append (not_dot_mem_renderNat _),
      splitDots_append (not_dot_mem_renderNat _), splitDots_of_not_mem (not_dot_mem_renderNat _)]
  have hparse : parse? id.render = some id := by
    simp only [parse?, hsplit, part?_renderNat id.space.toNat_lt (by decide),
      part?_renderNat id.type.toNat_lt (by decide), part?_renderNat id.inst.toNat_lt (by decide)]
    simp
  simp only [parse, hparse]

/-- An id is told by its instance where its space and type are known. -/
theorem eq_of_instance {id : ObjectId} {space type : UInt8} (hspace : id.space = space)
    (htype : id.type = type) (hinst : id.inst.toNat < UInt32.size) :
    id = ⟨space, type, (UInt32.ofNat id.inst.toNat).toUInt64⟩ := by
  obtain ⟨s, t, i⟩ := id
  obtain rfl : s = space := hspace
  obtain rfl : t = type := htype
  have hi : (UInt32.ofNat i.toNat).toUInt64 = i := by
    rw [← UInt64.toNat_inj, UInt32.toNat_toUInt64, UInt32.toNat_ofNat_of_lt' hinst]
  rw [hi]

/-! ### Packed form -/

theorem instanceSize_eq : instanceSize = 281474976710656 := by decide

theorem inst_ofPacked_lt (n : UInt64) : (ofPacked n).inst.toNat < instanceSize := by
  have hn := n.toNat_lt
  simp only [ofPacked, UInt64.toNat_ofNat', instanceSize_eq]
  omega

/-- A packed number and the id that it stands for. -/
theorem packed_eq_ok {id : ObjectId} {n : UInt64} :
    id.packed = .ok n ↔ ofPacked n = id ∧ id.inst.toNat < instanceSize := by
  have hsize := instanceSize_eq
  have hn := n.toNat_lt
  have hbyte : UInt8.size = 256 := rfl
  constructor
  · intro h
    have hspace := id.space.toNat_lt
    have htype := id.type.toNat_lt
    unfold packed at h
    split at h
    · rename_i hinst
      -- Space, type and instance are the digits of n in mixed radix.
      have hval := congrArg UInt64.toNat (Except.ok.inj h)
      rw [UInt64.toNat_ofNat', hbyte, hsize] at hval
      refine ⟨?_, hinst⟩
      have hs : UInt8.ofNat (n.toNat / instanceSize / UInt8.size) = id.space := by
        apply UInt8.toNat_inj.1
        rw [UInt8.toNat_ofNat', hbyte, hsize]
        omega
      have ht : UInt8.ofNat (n.toNat / instanceSize) = id.type := by
        apply UInt8.toNat_inj.1
        rw [UInt8.toNat_ofNat', hsize]
        omega
      have hi : UInt64.ofNat (n.toNat % instanceSize) = id.inst := by
        apply UInt64.toNat_inj.1
        rw [UInt64.toNat_ofNat', hsize]
        omega
      rw [ofPacked, hs, ht, hi]
    · cases h
  · intro h
    rcases h with ⟨rfl, hinst⟩
    rw [packed, if_pos hinst]
    -- Taking n apart and putting it together again gives n.
    refine congrArg Except.ok (UInt64.toNat_inj.1 ?_)
    simp only [ofPacked, UInt64.toNat_ofNat', UInt8.toNat_ofNat', hbyte, hsize]
    omega

end ObjectId

/-! ## Keys -/

theorem dropPrefix?_append (start body : String) :
    dropPrefix? start (start ++ body) = some body := by
  have hprefix : start.toList.isPrefixOf (start ++ body).toList = true := by
    simp
  have hdrop : (start ++ body).toList.drop start.length = body.toList := by
    rw [String.toList_append, ← String.length_toList, List.drop_left]
  rw [dropPrefix?, if_pos hprefix, hdrop, String.ofList_toList]

namespace PublicKey

theorem length_of_check {scheme : KeyScheme} {point : Bytes} (h : check scheme point = .ok ()) :
    point.length = scheme.keyLength := by
  unfold check at h
  split at h
  · cases h
  · rename_i hlength
    exact Decidable.not_not.1 hlength

/-- A checksum is a short part of a longer digest. -/
theorem length_checksum (point : Bytes) : (checksum point).length = 4 := by
  have h : (Ripemd160.digest (Sha512.digest point)).length = 20 := Ripemd160.length_digest _
  rw [checksum, List.length_take, h]
  rfl

/-- Reading a text is taking it apart and checking what is found. -/
theorem parse_of {scheme : KeyScheme} {start text body : String} {data point : Bytes}
    (hbody : bodyOf start text = .ok body) (hdata : Base58.decode body = .ok data)
    (hpoint : unchecked scheme text data = .ok point) (hcheck : check scheme point = .ok ()) :
    parse scheme start text = .ok point := by
  rw [parse, Except.bind_ok hbody, Except.bind_ok (Except.mapError_eq_ok.2 hdata),
    Except.bind_ok hpoint, Except.bind_ok hcheck]
  rfl

theorem parse_render {scheme : KeyScheme} {point : Bytes} (start : String)
    (h : check scheme point = .ok ()) :
    parse scheme start (render scheme start point) = .ok point := by
  cases scheme with
  | ed25519 =>
    -- The point is the whole text.
    have hbody : bodyOf start (render .ed25519 start point) = .ok (Base58.encode point) := by
      simp only [bodyOf, render, dropPrefix?_append]
    exact parse_of hbody (Base58.decode_encode _) rfl h
  | secp256k1 =>
    -- The checksum behind the point is split off by the length of the point,
    -- and it is the one that is computed again.
    have hlength := length_of_check h
    have hbody : bodyOf start (render .secp256k1 start point) =
        .ok (Base58.encode (point ++ checksum point)) := by
      simp only [bodyOf, render, dropPrefix?_append]
    have hlen : (point ++ checksum point).length = KeyScheme.secp256k1.keyLength + 4 := by
      rw [List.length_append, hlength, length_checksum]
    have htake : (point ++ checksum point).take KeyScheme.secp256k1.keyLength = point := by
      rw [← hlength, List.take_left]
    have hdrop : (point ++ checksum point).drop KeyScheme.secp256k1.keyLength = checksum point := by
      rw [← hlength, List.drop_left]
    refine parse_of hbody (Base58.decode_encode _) ?_ h
    simp only [unchecked, hlen, htake, hdrop, ne_eq, not_true_eq_false, if_true, if_false]

end PublicKey

/-! ## Addresses -/

namespace Address

theorem bytes_of_ofBytes {scheme : AddressScheme} {bs : Bytes} {a : Address}
    (h : ofBytes scheme bs = .ok a) :
    a = ⟨scheme, bs⟩ ∧ bs.length = scheme.byteLength := by
  unfold ofBytes at h
  split at h
  · cases h
  · rename_i hlength
    refine ⟨?_, Decidable.not_not.1 hlength⟩
    cases scheme with
    | graphene => exact (Except.ok.inj h).symm
    | pts =>
      dsimp only at h
      split at h
      · exact (Except.ok.inj h).symm
      · cases h

theorem length_grapheneChecksum (bs : Bytes) : (grapheneChecksum bs).length = 4 := by
  have h : (Ripemd160.digest bs).length = 20 := Ripemd160.length_digest _
  rw [grapheneChecksum, List.length_take, h]
  rfl

theorem parse_of {scheme : AddressScheme} {start text body : String} {data bs : Bytes}
    {a : Address} (hbody : bodyOf scheme start text = .ok body)
    (hdata : Base58.decode body = .ok data) (hbytes : unchecked scheme text data = .ok bs)
    (ha : ofBytes scheme bs = .ok a) : parse scheme start text = .ok a := by
  rw [parse, Except.bind_ok hbody, Except.bind_ok (Except.mapError_eq_ok.2 hdata),
    Except.bind_ok hbytes, ha]

theorem ofBytes_of_parse {scheme : AddressScheme} {start text : String} {a : Address}
    (h : parse scheme start text = .ok a) : ∃ bs, ofBytes scheme bs = .ok a := by
  simp only [parse, Except.bind_eq_ok] at h
  obtain ⟨_, _, _, _, bs, _, ha⟩ := h
  exact ⟨bs, ha⟩

/-- The text of an address is read as the address, behind any prefix. -/
theorem parse_render {scheme : AddressScheme} {bs : Bytes} {a : Address} (start : String)
    (h : ofBytes scheme bs = .ok a) : parse scheme start (a.render start) = .ok a := by
  obtain ⟨rfl, hlength⟩ := bytes_of_ofBytes h
  cases scheme with
  | pts => exact parse_of rfl (Base58.decode_encode bs) rfl h
  | graphene =>
    -- As for keys, the checksum is split off and computed again.
    have hbody : bodyOf .graphene start (render start ⟨.graphene, bs⟩) =
        .ok (Base58.encode (bs ++ grapheneChecksum bs)) := by
      simp only [bodyOf, render, dropPrefix?_append]
    have hlen : (bs ++ grapheneChecksum bs).length = AddressScheme.graphene.byteLength + 4 := by
      rw [List.length_append, hlength, length_grapheneChecksum]
    have htake : (bs ++ grapheneChecksum bs).take AddressScheme.graphene.byteLength = bs := by
      rw [← hlength, List.take_left]
    have hdrop : (bs ++ grapheneChecksum bs).drop AddressScheme.graphene.byteLength =
        grapheneChecksum bs := by
      rw [← hlength, List.drop_left]
    refine parse_of hbody (Base58.decode_encode _) ?_ h
    simp only [unchecked, hlen, htake, hdrop, ne_eq, not_true_eq_false, if_true, if_false]

end Address

end ChainCodec
