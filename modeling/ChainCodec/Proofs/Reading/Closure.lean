import ChainCodec.Codec.Read
import ChainCodec.Proofs.Reach

/-! # What all reads have in common

    Codecs read with a few actions and a few ways of putting actions together.
    A property that these have is `Closed`, and then whole codecs have it:
    `readWith_closed`.

    Two forms of codec bring actions of their own, an operation codec and
    bytes of a fixed number.  The property is required of them where a codec
    reaches them. -/

namespace ChainCodec

namespace Read

/-! ## Closed properties -/

/-- The property passes from parts to wholes, and failures that keep to the
    kinds of decoding have it. -/
structure Closed (P : ∀ {α : Type}, Read α → Prop) : Prop where
  ofResult : ∀ {α : Type} {y : Except Error α}, (∀ e, y = .error e → e.isDecode = true) →
    P (ofResult y)
  take : ∀ {n : Nat}, n < UInt32.size → P (take n)
  position : P position
  since : ∀ start : Nat, P (since start)
  bind : ∀ {α β : Type} {x : Read α} {f : α → Read β}, P x → (∀ a, P (f a)) → P (x >>= f)
  within : ∀ {α : Type} {x : Read α} (c : Context), P x → P (Read.within c x)
  nested : ∀ {α : Type} {x : Read α}, P x → P (Read.nested x)

namespace Closed

variable {P : ∀ {α : Type}, Read α → Prop} {α ε : Type}

theorem pure (hP : Closed P) (a : α) : P (Pure.pure a : Read α) :=
  hP.ofResult (y := .ok a) fun e h => by cases h

theorem fail (hP : Closed P) {e : Error} (he : e.isDecode = true) : P (Read.fail e : Read α) := by
  refine hP.ofResult (y := .error e) fun e' h => ?_
  cases h
  exact he

/-- A check whose faults are reported as faults of decoding. -/
theorem decoded (hP : Closed P) (y : Except ε α) (cause : ε → Cause) :
    P (Read.ofResult (y.mapError fun f => Error.decode (cause f))) := by
  refine hP.ofResult fun e h => ?_
  cases y with
  | error f =>
    cases h
    rfl
  | ok a => cases h

theorem repeatFrom (hP : Closed P) {f : Nat → Read α} (hf : ∀ i, P (f i)) (start count : Nat) :
    P (repeatFrom f start count) := by
  induction count generalizing start with
  | zero => exact hP.pure []
  | succ count ih =>
    exact hP.bind (hf start) fun a => hP.bind (ih (start + 1)) fun as => hP.pure (a :: as)

/-! ## Scalars -/

theorem byte (hP : Closed P) : P byte := hP.bind (hP.take (by decide)) fun _ => hP.pure _

theorem fixed (hP : Closed P) {width : Nat} (h : width < UInt32.size) : P (fixed width) :=
  hP.bind (hP.take h) fun _ => hP.pure _

theorem groups (hP : Closed P) (left weight low : Nat) : P (groups left weight low) := by
  induction left generalizing weight low with
  | zero => exact hP.fail rfl
  | succ left ih =>
    refine hP.bind hP.byte fun b => ?_
    dsimp only
    split
    · split
      · exact hP.pure _
      · exact hP.fail rfl
    · exact ih _ _

theorem varint (hP : Closed P) : P varint := hP.groups 5 1 0

theorem blob (hP : Closed P) : P blob := hP.bind hP.varint fun n => hP.take n.toNat_lt

theorem ordered (hP : Closed P) (duplicate : Bytes → Cause) (entries : List Order.Entry) :
    P (ordered duplicate entries) :=
  hP.bind (hP.decoded _ _) fun _ => hP.pure _

theorem bool (hP : Closed P) : P bool := by
  refine hP.bind hP.byte fun b => ?_
  split
  · exact hP.pure _
  · split
    · exact hP.pure _
    · exact hP.fail rfl

theorem string (hP : Closed P) : P string := hP.bind hP.blob fun _ => hP.decoded _ _

theorem publicKey (hP : Closed P) (scheme : KeyScheme) (start : String) :
    P (publicKey scheme start) := by
  have hlength : scheme.keyLength < UInt32.size := by cases scheme <;> decide
  exact hP.bind (hP.take hlength) fun _ => hP.bind (hP.decoded _ _) fun _ => hP.pure _

theorem address (hP : Closed P) (scheme : AddressScheme) (start : String) :
    P (address scheme start) := by
  have hlength : scheme.byteLength < UInt32.size := by cases scheme <;> decide
  exact hP.bind (hP.take hlength) fun _ => hP.bind (hP.decoded _ _) fun _ => hP.pure _

theorem objectId (hP : Closed P) (space type : UInt8) (more : List UInt8) :
    P (objectId space type more) := by
  unfold Read.objectId
  split
  · exact hP.bind hP.varint fun _ => hP.pure _
  · exact hP.fail rfl

end Closed

end Read

/-! ## Codecs -/

namespace Codec

open Read

/-- The property holds of the actions that the codec brings itself. -/
def HoldsAt (P : ∀ {α : Type}, Read α → Prop) (op : ReadOperation) : Codec → Prop
  | .operation link => P (op link)
  | .bytes (some n) => P (take n)
  | _ => True

variable {P : ∀ {α : Type}, Read α → Prop} {op : ReadOperation}

theorem holdsAt_of_forall (hop : ∀ link, P (op link)) (htake : ∀ n, P (take n)) (c : Codec) :
    HoldsAt P op c := by
  match c with
  | .operation link => exact hop link
  | .bytes (some n) => exact htake n
  | .bytes none | .int _ | .varint | .bool | .string | .time | .void | .vector _ | .set _ | .map ..
  | .optional _ | .pair .. | .variant .. | .struct .. | .objectId .. | .anyObjectId
  | .publicKey .. | .address .. => trivial

mutual

/-- A closed property holds of reading with a codec if it holds of what the
    codecs inside bring themselves. -/
theorem readWith_closed (env : Registries) (hP : Closed P) (c : Codec)
    (h : ∀ d, Reaches env c d → HoldsAt P op d) : P (readWith op c) := by
  match c with
  | .int t =>
    simp only [readWith]
    have hwidth : t.width.bytes < UInt32.size := by cases t.width <;> decide
    exact hP.bind (hP.fixed hwidth) fun _ => hP.pure _
  | .varint =>
    simp only [readWith]
    exact hP.bind hP.varint fun _ => hP.pure _
  | .bool =>
    simp only [readWith]
    exact hP.bind hP.bool fun _ => hP.pure _
  | .bytes none =>
    simp only [readWith, sized]
    exact hP.bind hP.blob fun _ => hP.pure _
  | .bytes (some n) =>
    simp only [readWith, sized]
    exact hP.bind (h _ (.refl _)) fun _ => hP.pure _
  | .string =>
    simp only [readWith]
    exact hP.bind hP.string fun _ => hP.pure _
  | .time | .anyObjectId =>
    simp only [readWith]
    exact hP.bind (hP.fixed (by decide)) fun _ => hP.pure _
  | .void =>
    simp only [readWith]
    exact hP.pure _
  | .objectId space type more =>
    simp only [readWith]
    exact hP.bind (hP.objectId space type more) fun _ => hP.pure _
  | .publicKey scheme start =>
    simp only [readWith]
    exact hP.bind (hP.publicKey scheme start) fun _ => hP.pure _
  | .address scheme start =>
    simp only [readWith]
    exact hP.bind (hP.address scheme start) fun _ => hP.pure _
  | .operation link =>
    simp only [readWith]
    exact h _ (.refl _)
  | .vector c =>
    simp only [readWith]
    have hc := readWith_closed env hP c fun d hd => h d (.head .vector hd)
    refine hP.bind hP.varint fun n => hP.bind (hP.repeatFrom (fun i => ?_) 0 n.toNat) fun _ => ?_
    · exact hP.within _ hc
    · exact hP.pure _
  | .set c =>
    simp only [readWith]
    have hc := readWith_closed env hP c fun d hd => h d (.head .set hd)
    refine hP.bind hP.varint fun n => hP.bind (hP.repeatFrom (fun i => ?_) 0 n.toNat) fun _ => ?_
    · exact hP.bind hP.position fun start => hP.bind (hP.within _ hc) fun _ =>
        hP.bind (hP.since start) fun _ => hP.pure _
    · exact hP.ordered _ _
  | .map c d =>
    simp only [readWith]
    have hc := readWith_closed env hP c fun e he => h e (.head .key he)
    have hd := readWith_closed env hP d fun e he => h e (.head .value he)
    refine hP.bind hP.varint fun n => hP.bind (hP.repeatFrom (fun i => ?_) 0 n.toNat) fun _ => ?_
    · exact hP.bind hP.position fun start => hP.bind (hP.within _ hc) fun _ =>
        hP.bind (hP.since start) fun _ => hP.bind (hP.within _ hd) fun _ => hP.pure _
    · exact hP.ordered _ _
  | .optional c =>
    simp only [readWith]
    refine hP.bind hP.byte fun b => ?_
    split
    · exact hP.pure _
    · split
      · exact readWith_closed env hP c fun d hd => h d (.head .optional hd)
      · exact hP.fail rfl
  | .pair c d =>
    simp only [readWith]
    have hc := readWith_closed env hP c fun e he => h e (.head .first he)
    have hd := readWith_closed env hP d fun e he => h e (.head .second he)
    exact hP.bind (hP.within _ hc) fun _ => hP.bind (hP.within _ hd) fun _ => hP.pure _
  | .variant label cases =>
    simp only [readWith]
    have hcase (tag : UInt32) := readCase_closed env hP label tag cases
      fun case hcase d hd => h d (.head (.case hcase) hd)
    exact hP.bind hP.varint fun tag => hP.bind (hcase tag) fun _ => hP.pure _
  | .struct fields _ =>
    simp only [readWith]
    have hfields := readFields_closed env hP fields
      fun field hfield d hd => h d (.head (.field hfield) hd)
    exact hP.bind hfields fun _ => hP.pure _

theorem readCase_closed (env : Registries) (hP : Closed P) (label : String) (tag : UInt32)
    (cases : List (UInt32 × Codec))
    (h : ∀ case ∈ cases, ∀ d, Reaches env case.2 d → HoldsAt P op d) :
    P (readCase op label tag cases) := by
  match cases with
  | [] =>
    simp only [readCase]
    exact hP.fail rfl
  | (t, c) :: rest =>
    simp only [readCase]
    split
    · exact hP.nested (hP.within _ (readWith_closed env hP c (h (t, c) (by simp))))
    · exact readCase_closed env hP label tag rest fun case hcase => h case (by simp [hcase])

theorem readFields_closed (env : Registries) (hP : Closed P) (fields : List (String × Codec))
    (h : ∀ field ∈ fields, ∀ d, Reaches env field.2 d → HoldsAt P op d) :
    P (readFields op fields) := by
  match fields with
  | [] =>
    simp only [readFields]
    exact hP.pure _
  | (name, c) :: rest =>
    simp only [readFields]
    have hc := readWith_closed env hP c (h (name, c) (by simp))
    have hrest := readFields_closed env hP rest fun field hfield => h field (by simp [hfield])
    exact hP.bind (hP.within _ hc) fun _ => hP.bind hrest fun _ => hP.pure _

end

/-- Failures of any kind do not matter to some properties, and then these hold
    of operations, whatever stands behind the registries. -/
theorem readOperation_closed (hP : Closed P)
    (hresult : ∀ {α : Type} (y : Except Error α), P (ofResult y)) (htake : ∀ n, P (take n))
    (env : Registries) (fuel : Nat) (link : OperationLink) : P (readOperation env fuel link) := by
  induction fuel generalizing link with
  | zero => exact hresult (.error (.ofRegistry .notInstalled))
  | succ fuel ih =>
    simp only [readOperation]
    exact hP.bind (hresult _) fun union =>
      readWith_closed env hP union fun d _ => holdsAt_of_forall ih htake d

end Codec

end ChainCodec
