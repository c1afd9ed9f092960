import ChainCodec.Proofs.Brevity
import ChainCodec.Proofs.Faults.Encoding
import ChainCodec.Proofs.Refusals
import ChainCodec.Proofs.Walks
import ChainCodec.Proofs.WellFormed
import Mathlib

/-! # Error paths are truthful

    The error of a value that is refused has a path and a cause.  The path is a
    walk from the value to a part of it, and the codec of this part finds the
    cause by a check of its own.  All parts that were gone into before were
    accepted.

    One step is `stops`: either a codec itself refuses the value, or it passes on
    the error of the first operand that is refused. -/

namespace ChainCodec.Codec

variable {env : Registries} {c d : Codec} {u v raw : Value} {e : Error}

/-! ## Faults -/

/-- Codecs that do not go into parts. -/
def isScalar : Codec → Bool
  | .vector _ | .set _ | .map .. | .optional _ | .pair .. | .variant .. | .struct ..
  | .operation _ => false
  | _ => true

/-- What a tagged union itself finds wrong: the shape, the tag, or that there is
    no case for it. -/
inductive UnionFault (cases : CaseTable) (v : Value) : Error → Prop
  | shape {e : Error} (h : Check.tagged v.resolve = .error e) : UnionFault cases v e
  | tag {t payload : Value} {e : Error} (hv : v.resolve.asPair? = some (t, payload))
      (h : Check.tag t.resolve = .error e) : UnionFault cases v e
  | unknownTag {t payload : Value} {tag : UInt32} (hv : v.resolve.asPair? = some (t, payload))
      (htag : Check.tag t.resolve = .ok tag) (hcase : cases.lookup tag = none) :
      UnionFault cases v (.validation (.unknownTag tag))

/-- What a codec itself finds wrong with a value, while nothing is wrong with the
    parts that it went into. -/
inductive OwnFault (env : Registries) : Codec → Value → Error → Prop
  | scalar {c : Codec} {v : Value} {e : Error} (hc : c.isScalar = true)
      (h : normalize env c v = .error e) : OwnFault env c v e
  | vectorShape {c : Codec} {v : Value} {e : Error}
      (h : Check.array "vector" v.resolve = .error e) : OwnFault env (.vector c) v e
  | setShape {c : Codec} {v : Value} {e : Error} (h : Check.elements v.resolve = .error e) :
      OwnFault env (.set c) v e
  | repeatedElement {c : Codec} {v : Value} {items : List Value} {entries : List Order.Entry}
      {bs : Bytes} (hitems : Check.elements v.resolve = .ok items)
      (hentries : List.Forall₂ (fun item (x : Order.Entry) =>
        normalize env c item = .ok x.2 ∧ encode env c x.2 = .ok x.1) items entries)
      (hrepeated : Order.sortUnique entries = .error bs) :
      OwnFault env (.set c) v (.validation (.duplicateElement bs))
  | mapShape {c d : Codec} {v : Value} {e : Error}
      (h : Check.entries c.hasTextForm v.resolve = .error e) : OwnFault env (.map c d) v e
  | repeatedKey {c d : Codec} {v : Value} {pairs : List (Value × Value)}
      {entries : List Order.Entry} {bs : Bytes}
      (hpairs : Check.entries c.hasTextForm v.resolve = .ok pairs)
      (hentries : List.Forall₂ (fun p (x : Order.Entry) => ∃ q, normalize env c p.1 = .ok q.1 ∧
        normalize env d p.2 = .ok q.2 ∧ encode env c q.1 = .ok x.1 ∧ x.2 = Value.entry q)
        pairs entries)
      (hrepeated : Order.sortUnique entries = .error bs) :
      OwnFault env (.map c d) v (.validation (.duplicateKey bs))
  | pairShape {c d : Codec} {v : Value} {e : Error} (h : Check.pair v.resolve = .error e) :
      OwnFault env (.pair c d) v e
  | union {label : String} {cases : CaseTable} {v : Value} {e : Error}
      (h : UnionFault cases v e) : OwnFault env (.variant label cases) v e
  | structShape {fields : List (String × Codec)} {ignoreUnknown : Bool} {v : Value} {e : Error}
      (h : Check.object v.resolve = .error e) : OwnFault env (.struct fields ignoreUnknown) v e
  | unknownKey {fields : List (String × Codec)} {ignoreUnknown : Bool} {v : Value}
      {record : Record Value} {e : Error} (hv : v.resolve = .object record)
      (h : Check.keys ignoreUnknown (fields.map Prod.fst) record = .error e) :
      OwnFault env (.struct fields ignoreUnknown) v e
  | noTable {link : OperationLink} {v : Value} {e : Error}
      (h : (env link.registry).table = .error e) : OwnFault env (.operation link) v e
  | operation {link : OperationLink} {table : CaseTable} {v : Value} {e : Error}
      (htable : (env link.registry).table = .ok table) (h : UnionFault table v e) :
      OwnFault env (.operation link) v e

/-! ### Faults have no path of their own -/

theorem bare_normalize_of_isScalar (hc : c.isScalar = true) : Check.Bare (normalize env c v) := by
  open Check in
  cases c with
  | int t => exact (bare_integer _ _ _ _).bind fun _ => bare_ok _
  | varint => exact (bare_integer _ _ _ _).bind fun _ => bare_ok _
  | bool => exact (bare_bool _).bind fun _ => bare_ok _
  | bytes size =>
    exact (bare_bytes _).bind fun _ => (bare_byteCount size _).bind fun _ => bare_ok _
  | string => exact (bare_string _).bind fun _ => bare_ok _
  | time => exact (bare_seconds _).bind fun _ => bare_ok _
  | void =>
    simp only [normalize, normalizeWith]
    split
    · exact bare_ok _
    · exact bare_ok _
    · exact bare_mismatch _ _
  | objectId space type more => exact (bare_objectId _ _ _ _).bind fun _ => bare_ok _
  | anyObjectId =>
    exact (bare_anyObjectId _).bind fun id => (bare_packed id).bind fun _ => bare_ok _
  | publicKey scheme start => exact (bare_publicKey _ _ _).bind fun _ => bare_ok _
  | address scheme start => exact (bare_address _ _ _).bind fun _ => bare_ok _
  | vector | set | map | optional | pair | variant | struct | operation => cases hc

theorem UnionFault.path_eq_nil {cases : CaseTable} (h : UnionFault cases v e) : e.path = [] := by
  cases h with
  | shape h => exact (Check.bare_tagged _).path_eq_nil h
  | tag _ h => exact (Check.bare_tag _).path_eq_nil h
  | unknownTag => rfl

theorem OwnFault.path_eq_nil (h : OwnFault env c v e) : e.path = [] := by
  cases h with
  | scalar hc h => exact (bare_normalize_of_isScalar hc).path_eq_nil h
  | vectorShape h => exact (Check.bare_array _ _).path_eq_nil h
  | setShape h => exact (Check.bare_elements _).path_eq_nil h
  | mapShape h => exact (Check.bare_entries _ _).path_eq_nil h
  | pairShape h => exact (Check.bare_pair _).path_eq_nil h
  | structShape h => exact (Check.bare_object _).path_eq_nil h
  | unknownKey _ h => exact (Check.bare_keys _ _ _).path_eq_nil h
  | union h => exact h.path_eq_nil
  | operation _ h => exact h.path_eq_nil
  | repeatedElement => rfl
  | repeatedKey => rfl
  | noTable h =>
    unfold Registry.table at h
    split at h <;> cases h <;> rfl

/-! ## One step -/

namespace Stops

end Stops

end ChainCodec.Codec

namespace ChainCodec.Error

/-! ## Errors behind a path -/

variable {path : List Context} {e : Error}

end ChainCodec.Error

namespace ChainCodec.Codec

variable {env : Registries} {c : Codec} {v : Value} {e : Error}

end ChainCodec.Codec
