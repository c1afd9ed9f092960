import ChainCodec.Proofs.Children
import ChainCodec.Proofs.Collections
import ChainCodec.Proofs.ErrorKinds
import ChainCodec.Proofs.Reading.Completeness
import ChainCodec.Proofs.Reading.Soundness
import Mathlib

/-! # Counts are paid for with bytes

    A vector, a set or a map starts with the number of its elements, and the
    number is believed until the bytes are at an end.  Where each element takes
    a byte at least, the bytes bound the elements of all collections in a value
    together, however they are nested: `Spells.elementCount_le`.

    This is so for all codecs of a protocol: `Protocol.Gives.noEmptyElements`. -/

namespace ChainCodec

/-- The action cannot succeed without moving the cursor. -/
def Read.Takes {α : Type} (x : Read α) : Prop :=
  ∀ r a r', r.cursor ≤ r.data.size → x r = (.ok a, r') → r.cursor < r'.cursor

namespace Codec

/-- What vectors, sets and maps collect is never read from no bytes.  The
    element of a map is the pair of key and value. -/
def NoEmptyElements (env : Registries) (c : Codec) : Prop :=
  ∀ d e, Reaches env c d → d.element? = some e → (read env e).Takes

section Elements

variable {env : Registries} {c d : Codec} {k : Nat} {bs : Bytes} {v : Value}
  {parts : List ((Codec × Value) × Bytes)} {p : Codec × Value}

/-! ## Codecs of children -/

theorem NoEmptyElements.inside (h : NoEmptyElements env c) (hd : Inside env c d) :
    NoEmptyElements env d := fun e f he => h e f (.head hd he)

theorem NoEmptyElements.pair_of_map (h : NoEmptyElements env (.map c d)) :
    NoEmptyElements env (.pair c d) := by
  intro e f he hf
  rcases Relation.ReflTransGen.cases_head he with rfl | ⟨x, hx, hxe⟩
  · -- The pair itself collects nothing.
    cases hf
  · cases hx with
    | first => exact h e f (.head .key hxe) hf
    | second => exact h e f (.head .value hxe) hf

theorem exists_lookup_of_mem_operand {cases : CaseTable} (h : p ∈ operand cases v) :
    ∃ tag, cases.lookup tag = some p.1 := by
  unfold operand at h
  split at h
  · split at h
    · rename_i c hcase
      obtain rfl := List.mem_singleton.1 h
      exact ⟨_, hcase⟩
    · cases h
  · cases h

/-- A child is read by a codec inside, if it is not an entry of a map. -/
theorem inside_of_mem_children (h : p ∈ children env c v) :
    Inside env c p.1 ∨ ∃ d e, c = .map d e ∧ p.1 = .pair d e := by
  unfold children at h
  split at h
  · obtain ⟨item, _, rfl⟩ := List.mem_map.1 h
    exact .inl .vector
  · obtain ⟨item, _, rfl⟩ := List.mem_map.1 h
    exact .inl .set
  · obtain ⟨item, _, rfl⟩ := List.mem_map.1 h
    exact .inr ⟨_, _, rfl, rfl⟩
  · split at h
    · cases h
    · obtain rfl := List.mem_singleton.1 h
      exact .inl .optional
  · left
    rcases List.mem_cons.1 h with rfl | h
    · exact .first
    · obtain rfl := List.mem_singleton.1 h
      exact .second
  · obtain ⟨tag, hcase⟩ := exists_lookup_of_mem_operand h
    exact .inl (.case (mem_of_lookup hcase))
  · obtain ⟨f, hf, rfl⟩ := List.mem_map.1 h
    exact .inl (.field ((Record.kept_sublist _).subset hf))
  · split at h
    · rename_i table htable
      obtain ⟨tag, hcase⟩ := exists_lookup_of_mem_operand h
      exact .inl (.operation htable (mem_of_lookup hcase))
    · cases h
  · cases h

theorem NoEmptyElements.child (h : NoEmptyElements env c) (hp : p ∈ children env c v) :
    NoEmptyElements env p.1 := by
  rcases inside_of_mem_children hp with hinside | ⟨d, e, rfl, hpair⟩
  · exact h.inside hinside
  · rw [hpair]
    exact h.pair_of_map

theorem element?_of_mem_children (hcollection : c.isCollection = true)
    (hp : p ∈ children env c v) : c.element? = some p.1 := by
  cases c with
  | vector c | set c | map c d =>
    cases v with
    | array items =>
      obtain ⟨item, _, rfl⟩ := List.mem_map.1 hp
      rfl
    | _ => cases hp
  | _ => cases hcollection

/-! ## Bytes of elements -/

/-- What takes bytes has no empty spelling. -/
theorem Spells.length_pos (h : Spells env k c bs v) (htakes : (read env c).Takes) :
    0 < bs.length := by
  have hread : read env c (.withLimit k bs) = (.ok v, (Reader.withLimit k bs).advance bs.length) :=
    read_eq_of_spells h (Reader.before_withLimit k bs) (Nat.le_refl k)
  have hmoved := htakes _ _ _ (Nat.zero_le _) hread
  simpa [Reader.withLimit, Reader.advance] using hmoved

/-- Each element has bytes of its own. -/
theorem Divides.length_pos (h : Divides env k c v bs parts) (hcollection : c.isCollection = true)
    (hne : NoEmptyElements env c) : ∀ p ∈ parts, 0 < p.2.length := by
  intro p hp
  have hmem : p.1 ∈ Codec.children env c v := h.children ▸ List.mem_map_of_mem hp
  have helement := element?_of_mem_children hcollection hmem
  exact (h.spells p hp).length_pos (hne c p.1.1 (.refl _) helement)

/-- One byte is left over, if there is any. -/
theorem sum_le_length {ι : Type} {parts : List (ι × Bytes)} {f : ι → Nat}
    (h : ∀ p ∈ parts, f p.1 ≤ p.2.length - 1) :
    ((parts.map Prod.fst).map f).sum ≤ (parts.flatMap Prod.snd).length - 1 := by
  induction parts with
  | nil => exact Nat.le_refl 0
  | cons p parts ih =>
    have hhead := h p (by simp)
    have htail := ih fun q hq => h q (by simp [hq])
    rw [List.map_cons, List.map_cons, List.sum_cons, List.flatMap_cons, List.length_append]
    omega

/-- One byte of each element is left over to pay for the element itself. -/
theorem length_add_sum_le_length {ι : Type} {parts : List (ι × Bytes)} {f : ι → Nat}
    (h : ∀ p ∈ parts, f p.1 ≤ p.2.length - 1) (hpos : ∀ p ∈ parts, 0 < p.2.length) :
    parts.length + ((parts.map Prod.fst).map f).sum ≤ (parts.flatMap Prod.snd).length := by
  induction parts with
  | nil => exact Nat.le_refl 0
  | cons p parts ih =>
    have hhead := h p (by simp)
    have hbyte := hpos p (by simp)
    have htail := ih (fun q hq => h q (by simp [hq])) fun q hq => hpos q (by simp [hq])
    rw [List.map_cons, List.map_cons, List.sum_cons, List.flatMap_cons, List.length_append,
      List.length_cons]
    omega

theorem length_le_of_pos {ι : Type} {parts : List (ι × Bytes)}
    (hpos : ∀ p ∈ parts, 0 < p.2.length) : parts.length ≤ (parts.flatMap Prod.snd).length := by
  have hsum := length_add_sum_le_length (f := fun _ => 0) (fun _ _ => Nat.zero_le _) hpos
  exact Nat.le_of_add_right_le hsum

/-- A value has fewer elements, at all levels together, than bytes; so the
    bytes also pay for the value as an element of a collection. -/
theorem Spells.elementCount_le (h : Spells env k c bs v) (hne : NoEmptyElements env c) :
    elementCount env c v ≤ bs.length - 1 := by
  induction c, v using children_induction env generalizing k bs with
  | h c v ih =>
    obtain ⟨j, parts, _, hdivides⟩ := h.divides
    have hparts : ∀ p ∈ parts, elementCount env p.1.1 p.1.2 ≤ p.2.length - 1 := by
      intro p hp
      have hmem : p.1 ∈ children env c v := hdivides.children ▸ List.mem_map_of_mem hp
      exact ih p.1 hmem (hdivides.spells p hp) (hne.child hmem)
    obtain ⟨start, rest, rfl, hrest, hcount⟩ := hdivides.bytes
    rw [elementCount_eq, ← hdivides.children, List.length_map, List.length_append]
    split
    · rename_i hcollection
      have hstart := (hcount hcollection).length_pos
      have hsum := length_add_sum_le_length (f := fun p : Codec × Value => elementCount env p.1 p.2)
        hparts (hdivides.length_pos hcollection hne)
      omega
    · have hsum := sum_le_length (f := fun p : Codec × Value => elementCount env p.1 p.2) hparts
      omega

/-- A number of elements that exceeds the number of bytes behind it is refused,
    whatever these bytes are. -/
theorem read_fails_of_count (hcollection : c.isCollection = true) (hne : NoEmptyElements env c)
    {r r' : Reader} {n : UInt32} (hr : r.cursor ≤ r.data.size)
    (hcount : Read.varint r = (.ok n, r')) (hn : r'.remaining < n.toNat) :
    ∃ halt r'', read env c r = (.error halt, r'') := by
  rcases hread : read env c r with ⟨halt | v, r''⟩
  · exact ⟨halt, r'', rfl⟩
  · -- A value that was read has as many elements as its count says.
    exfalso
    obtain ⟨bs, hbefore, _, hspells⟩ :=
      read_sound env c r.room r v r'' rfl (Reader.before_nil hr) hread
    obtain ⟨j, parts, _, hdivides⟩ := hspells.divides
    obtain ⟨start, rest, rfl, hrest, hstart⟩ := hdivides.bytes
    obtain ⟨m, hm, hspells'⟩ := hstart hcollection
    rcases Read.yields_varint (k := 0) hspells' r hbefore.left with hvarint | ⟨hroom, _⟩
    · obtain ⟨hnm, rfl⟩ := Prod.mk.inj (hcount.symm.trans hvarint)
      obtain rfl := Except.ok.inj hnm
      have helements := length_le_of_pos (hdivides.length_pos hcollection hne)
      have hremaining := hbefore.right.length_le_remaining
      omega
    · exact absurd hroom (Nat.not_lt_zero _)

/-! ## A test -/

mutual

/-- Whether a codec tells by its form that it reads a byte at least. -/
def takesBytes : Codec → Bool
  | .void => false
  | .bytes (some n) => decide (0 < n)
  | .pair c d => takesBytes c || takesBytes d
  | .struct fields _ => someTakesBytes fields
  | _ => true

def someTakesBytes : List (String × Codec) → Bool
  | [] => false
  | (_, c) :: rest => takesBytes c || someTakesBytes rest

end

def elementsTakeBytes (c : Codec) : Bool :=
  match c.element? with
  | some e => e.takesBytes
  | none => true

theorem exists_takesBytes {fields : List (String × Codec)} (h : someTakesBytes fields = true) :
    ∃ f ∈ fields, f.2.takesBytes = true := by
  induction fields with
  | nil => cases h
  | cons f rest ih =>
    rw [someTakesBytes, Bool.or_eq_true] at h
    rcases h with h | h
    · exact ⟨f, by simp, h⟩
    · obtain ⟨g, hg, hgtakes⟩ := ih h
      exact ⟨g, by simp [hg], hgtakes⟩

theorem Spells.length_pos_of_takesBytes (h : Spells env k c bs v) (htakes : c.takesBytes = true) :
    0 < bs.length := by
  induction h with
  | @int _ t _ hlength =>
    rw [hlength]
    cases t.width <;> decide
  | varint h => exact h.terminated.length_pos
  | bool => exact Nat.zero_lt_one
  | fixedBytes hlength =>
    rw [hlength]
    exact of_decide_eq_true htakes
  | blob hcount | string hcount | vector hcount _ | set hcount _ _ | map hcount _ _ _ =>
    have hpos := hcount.length_pos
    rw [List.length_append]
    omega
  | time hlength | anyObjectId hlength =>
    rw [hlength]
    decide
  | void => cases htakes
  | absent => exact Nat.zero_lt_one
  | present _ _ => exact Nat.zero_lt_succ _
  | pair _ _ iha ihb =>
    rw [takesBytes, Bool.or_eq_true] at htakes
    rw [List.length_append]
    rcases htakes with h | h
    · have hpos := iha h
      omega
    · have hpos := ihb h
      omega
  | variant htag _ _ _ | operation _ htag _ _ _ =>
    have hpos := htag.terminated.length_pos
    rw [List.length_append]
    omega
  | @struct _ _ parts _ ih =>
    obtain ⟨f, hf, hftakes⟩ := exists_takesBytes htakes
    obtain ⟨p, hp, rfl⟩ := List.mem_map.1 hf
    have hpos := ih p hp hftakes
    have hmem : p.2.1 ∈ parts.map fun p => p.2.1 := List.mem_map_of_mem hp
    have hpart := (List.sublist_flatten_of_mem hmem).length_le
    exact Nat.lt_of_lt_of_le hpos hpart
  | objectId h => exact h.terminated.length_pos
  | @publicKey _ scheme _ _ hcheck =>
    rw [PublicKey.length_of_check hcheck]
    cases scheme <;> decide
  | @address _ scheme _ _ _ hbytes =>
    rw [(Address.bytes_of_ofBytes hbytes).2]
    cases scheme <;> decide

theorem read_takes (h : c.takesBytes = true) : (read env c).Takes := by
  intro r v r' hr hread
  obtain ⟨bs, _, rfl, hspells⟩ :=
    read_sound env c r.room r v r' rfl (Reader.before_nil hr) hread
  exact Nat.lt_add_of_pos_right (hspells.length_pos_of_takesBytes h)

theorem noEmptyElements_of_test (h : ∀ d, Reaches env c d → d.elementsTakeBytes = true) :
    NoEmptyElements env c := by
  intro d e hd he
  have htest := h d hd
  rw [elementsTakeBytes, he] at htest
  exact read_takes htest

end Elements

theorem allCases_elementsTakeBytes_operationTable (id : RegistryId) :
    allCases elementsTakeBytes (Schema.operationTable id) = true := rfl

end Codec

namespace Protocol

open Codec

variable {p : Protocol} {c : Codec}

theorem Gives.all_elementsTakeBytes (h : p.Gives c) : all elementsTakeBytes c = true := by
  cases h with
  | whole hentry =>
    have hcodecs : allFields elementsTakeBytes p.codecs = true := rfl
    exact all_of_mem_fields hcodecs hentry
  | shared hentry =>
    have hshared : allFields elementsTakeBytes p.sharedCodecs = true := rfl
    exact all_of_mem_fields hshared hentry
  | fields id => cases id <;> rfl
  | object h =>
    unfold chainObject? at h
    split at h
    · split at h <;> cases h <;> rfl
    · split at h <;> cases h
      rfl
    · cases h

/-- No codec of a protocol collects what may be read from no bytes. -/
theorem Gives.noEmptyElements {env : Registries} (h : p.Gives c)
    (henv : env p.registry = .installed (Schema.operationTable p.registry)) :
    NoEmptyElements env c := by
  have htables : ∀ link table, refersTo p.registry (.operation link) = true →
      (env link.registry).table = .ok table → allCases (refersTo p.registry) table = true ∧
        allCases elementsTakeBytes table = true := by
    intro link table hlink htable
    rw [of_decide_eq_true hlink, henv] at htable
    obtain rfl := Except.ok.inj htable
    exact ⟨allCases_refersTo_operationTable p.registry,
      allCases_elementsTakeBytes_operationTable p.registry⟩
  exact noEmptyElements_of_test fun d hd =>
    hd.passes_guarded htables h.all_refersTo h.all_elementsTakeBytes

end Protocol

namespace Codec

/-- A value has no more elements, in all its vectors, sets and maps together,
    than bytes were read for it, and a count that exceeds the bytes behind it is
    refused, wherever no element is read from no bytes.  The codecs of a
    protocol are such. -/
theorem no_amplification (env : Registries) (c : Codec) :
    (NoEmptyElements env c →
      (∀ r v r', r.cursor ≤ r.data.size → read env c r = (.ok v, r') →
        elementCount env c v ≤ r'.cursor - r.cursor) ∧
      ∀ d, Reaches env c d → d.isCollection = true →
        ∀ r n r', r.cursor ≤ r.data.size → Read.varint r = (.ok n, r') →
          r'.remaining < n.toNat → ∃ halt r'', read env d r = (.error halt, r'')) ∧
    ∀ p : Protocol, p.Gives c →
      env p.registry = .installed (Schema.operationTable p.registry) → NoEmptyElements env c := by
  refine ⟨fun hne => ⟨fun r v r' hr hread => ?_, fun d hd hcollection r n r' hr hcount hn => ?_⟩,
    fun p hp henv => hp.noEmptyElements henv⟩
  · obtain ⟨bs, _, rfl, hspells⟩ :=
      read_sound env c r.room r v r' rfl (Reader.before_nil hr) hread
    have hcount := hspells.elementCount_le hne
    simp only [Reader.advance]
    omega
  · have hne' : NoEmptyElements env d := fun e f he => hne e f (hd.trans he)
    exact read_fails_of_count hcollection hne' hr hcount hn

/-- Three bytes hold two accounts, and cannot hold nine. -/
theorem no_amplification_accountSet :
    elementCount .live Schema.accountSet (.array [.str "1.2.5", .str "1.2.7"]) ≤ 3 ∧
      ∃ halt r, read .live Schema.accountSet (.ofBytes [9, 7, 5]) = (.error halt, r) := by
  obtain ⟨hbound, hprotocol⟩ := no_amplification .live Schema.accountSet
  have hshared : ("account_set", Schema.accountSet) ∈ Protocol.sharedCodecs {} := by
    simp [Protocol.sharedCodecs]
  have hgives : Protocol.Gives {} Schema.accountSet := .shared hshared
  obtain ⟨helements, hcount⟩ := hbound (hprotocol _ hgives rfl)
  constructor
  · exact helements (.ofBytes [2, 7, 5]) _ ((Reader.ofBytes [2, 7, 5]).advance 3) (by decide)
      (by cbv)
  · exact hcount Schema.accountSet (.refl _) rfl (.ofBytes [9, 7, 5]) 9
      ((Reader.ofBytes [9, 7, 5]).advance 1) (by decide) (by cbv) (by decide)

end Codec

end ChainCodec
