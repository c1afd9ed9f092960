import ChainCodec.Codec.Write
import ChainCodec.Proofs.Reach
import ChainCodec.Proofs.Refusals

/-! # What all writes have in common

    Codecs write with checks, which look at the value, and with bytes.  A
    property that checks and bytes have, and that passes from parts to wholes,
    is `Closed`, and then writing with any codec has it, if the operation
    codecs inside do: `writeWith_closed`. -/

namespace ChainCodec

namespace Write

/-! ## Closed properties -/

/-- The property passes from parts to wholes, and checks that refuse a value
    have it. -/
structure Closed (P : ∀ {α : Type}, Write α → Prop) : Prop where
  checked : ∀ {α : Type} {y : Except Error α}, Check.Refuses y → P (liftM y : Write α)
  bytes : ∀ bs : Bytes, P (bytes bs)
  bind : ∀ {α β : Type} {x : Write α} {f : α → Write β}, P x → (∀ a, P (f a)) → P (x >>= f)
  within : ∀ {α : Type} {x : Write α} (c : Context), P x → P (Write.within c x)

namespace Closed

variable {P : ∀ {α : Type}, Write α → Prop} {α β : Type}

theorem pure (hP : Closed P) (a : α) : P (Pure.pure a : Write α) :=
  hP.checked (Check.bare_ok a).refuses

theorem fail (hP : Closed P) (cause : Cause) : P (Write.fail cause : Write α) :=
  hP.checked (Check.bare_fail cause).refuses

theorem traverseFrom (hP : Closed P) {f : Nat → β → Write α} (hf : ∀ i b, P (f i b))
    (start : Nat) (items : List β) : P (traverseFrom f start items) := by
  induction items generalizing start with
  | nil => exact hP.pure []
  | cons item items ih =>
    exact hP.bind (hf start item) fun a => hP.bind (ih (start + 1)) fun as => hP.pure (a :: as)

theorem count (hP : Closed P) (n : Nat) : P (count n) := by
  unfold Write.count
  split
  · exact hP.bytes _
  · exact hP.fail _

theorem blob (hP : Closed P) (tooLong : Cause) (bs : Bytes) : P (blob tooLong bs) := by
  unfold Write.blob
  split
  · exact hP.bind (hP.bytes _) fun _ => hP.bytes bs
  · exact hP.fail _

end Closed

end Write

/-! ## Codecs -/

namespace Codec

open Write Check

variable {P : ∀ {α : Type}, Write α → Prop} {op : WriteOperation}

mutual

/-- A closed property holds of writing with a codec if it holds of writing
    with the operation codecs inside. -/
theorem writeWith_closed (env : Registries) (hP : Closed P) (c : Codec)
    (h : ∀ link, Reaches env c (.operation link) → ∀ v, P (op link v)) (v : Value) :
    P (writeWith op c v) := by
  match c with
  | .int _ | .varint =>
    simp only [writeWith]
    exact hP.bind (hP.checked (bare_integer _ _ _ v).refuses) fun _ => hP.bytes _
  | .bool =>
    simp only [writeWith]
    exact hP.bind (hP.checked (bare_canonicalBool v).refuses) fun _ => hP.bytes _
  | .bytes size =>
    simp only [writeWith]
    refine hP.bind (hP.checked (bare_canonicalBytes v).refuses) fun bs => ?_
    refine hP.bind (hP.checked (bare_byteCount size bs).refuses) fun bs' => ?_
    cases size with
    | none => exact hP.blob _ bs'
    | some n => exact hP.bytes bs'
  | .string =>
    simp only [writeWith]
    exact hP.bind (hP.checked (bare_canonicalString v).refuses) fun _ => hP.blob _ _
  | .time =>
    simp only [writeWith]
    exact hP.bind (hP.checked (bare_integer _ _ _ v).refuses) fun _ => hP.bytes _
  | .void =>
    simp only [writeWith]
    exact hP.pure ()
  | .vector c =>
    simp only [writeWith]
    have hc := writeWith_closed env hP c fun link hlink => h link (.head .vector hlink)
    refine hP.bind (hP.checked (bare_array _ v).refuses) fun items =>
      hP.bind (hP.count _) fun _ => ?_
    refine hP.bind (hP.traverseFrom ?_ 0 items) fun _ => hP.pure ()
    exact fun i item => hP.within _ (hc item)
  | .set c =>
    simp only [writeWith]
    have hc := writeWith_closed env hP c fun link hlink => h link (.head .set hlink)
    refine hP.bind (hP.checked (bare_array _ v).refuses) fun items =>
      hP.bind (hP.count _) fun _ => ?_
    refine hP.bind (hP.traverseFrom ?_ 0 items) fun _ => hP.pure ()
    exact fun i item => hP.within _ (hc item)
  | .map c d =>
    simp only [writeWith]
    have hc := writeWith_closed env hP c fun link hlink => h link (.head .key hlink)
    have hd := writeWith_closed env hP d fun link hlink => h link (.head .value hlink)
    refine hP.bind (hP.checked (bare_canonicalEntries v).refuses) fun items =>
      hP.bind (hP.count _) fun _ => ?_
    refine hP.bind (hP.traverseFrom (fun i entry => ?_) 0 items) fun _ => hP.pure ()
    exact hP.bind (hP.checked (bare_canonicalEntry i entry).refuses) fun p =>
      hP.bind (hP.within _ (hc p.1)) fun _ => hP.within _ (hd p.2)
  | .optional c =>
    simp only [writeWith]
    split
    · exact hP.bytes _
    · exact hP.bind (hP.bytes _) fun _ =>
        writeWith_closed env hP c (fun link hlink => h link (.head .optional hlink)) v
  | .pair c d =>
    simp only [writeWith]
    have hc := writeWith_closed env hP c fun link hlink => h link (.head .first hlink)
    have hd := writeWith_closed env hP d fun link hlink => h link (.head .second hlink)
    exact hP.bind (hP.checked (bare_pair v).refuses) fun p =>
      hP.bind (hP.within _ (hc p.1)) fun _ => hP.within _ (hd p.2)
  | .variant label cases =>
    simp only [writeWith]
    refine hP.bind (hP.checked (bare_tagged v).refuses) fun p =>
      hP.bind (hP.checked (bare_tag p.1).refuses) fun tag => ?_
    exact writeCase_closed env hP label tag cases
      (fun case hcase link hlink => h link (.head (.case hcase) hlink)) p.2
  | .struct fields _ =>
    simp only [writeWith]
    refine hP.bind (hP.checked (bare_object v).refuses) fun record => ?_
    exact writeFields_closed env hP fields
      (fun field hfield link hlink => h link (.head (.field hfield) hlink)) record
  | .objectId space type more =>
    simp only [writeWith]
    exact hP.bind (hP.checked (bare_objectId space type more v).refuses) fun _ => hP.bytes _
  | .anyObjectId =>
    simp only [writeWith]
    exact hP.bind (hP.checked (bare_anyObjectId v).refuses) fun id =>
      hP.bind (hP.checked (bare_packed id).refuses) fun _ => hP.bytes _
  | .publicKey scheme start =>
    simp only [writeWith]
    exact hP.bind (hP.checked (bare_publicKey scheme start v).refuses) fun _ => hP.bytes _
  | .address scheme start =>
    simp only [writeWith]
    exact hP.bind (hP.checked (bare_address scheme start v).refuses) fun _ => hP.bytes _
  | .operation link =>
    simp only [writeWith]
    exact h link (.refl _) v

theorem writeCase_closed (env : Registries) (hP : Closed P) (label : String) (tag : UInt32)
    (cases : List (UInt32 × Codec))
    (h : ∀ case ∈ cases, ∀ link, Reaches env case.2 (.operation link) → ∀ v, P (op link v))
    (payload : Value) : P (writeCase op label tag cases payload) := by
  match cases with
  | [] =>
    simp only [writeCase]
    exact hP.fail _
  | (t, c) :: rest =>
    simp only [writeCase]
    split
    · exact hP.bind (hP.bytes _) fun _ =>
        hP.within _ (writeWith_closed env hP c (h (t, c) (by simp)) payload)
    · have hrest := fun case hcase => h case (List.mem_cons_of_mem (t, c) hcase)
      exact writeCase_closed env hP label tag rest hrest payload

theorem writeFields_closed (env : Registries) (hP : Closed P) (fields : List (String × Codec))
    (h : ∀ field ∈ fields, ∀ link, Reaches env field.2 (.operation link) → ∀ v, P (op link v))
    (record : Record Value) : P (writeFields op fields record) := by
  match fields with
  | [] =>
    simp only [writeFields]
    exact hP.pure ()
  | (name, c) :: rest =>
    simp only [writeFields]
    refine hP.bind (hP.within _ (writeWith_closed env hP c (h (name, c) (by simp)) _)) fun _ => ?_
    exact writeFields_closed env hP rest (fun field hfield => h field (by simp [hfield])) record

end

end Codec

end ChainCodec
