import ChainCodec.Codec.Read
import ChainCodec.Proofs.Forcing
import ChainCodec.Proofs.Order

/-! # What a read gives

    `GivesOnly` is a property of all results that an action has, whatever it
    is run on.  It is proved of an action from the results of its parts.

    What `Codec.read` gives is literal: `literal_of_read`.  This holds of any
    buffer and of any position in it. -/

namespace ChainCodec

/-! ## Actions -/

namespace Read

variable {α β : Type} {P : α → Prop} {Q : β → Prop}

/-- Every result of the action has the property. -/
structure GivesOnly (P : α → Prop) (x : Read α) : Prop where
  of_eq : ∀ {r a r'}, x r = (.ok a, r') → P a

theorem givesOnly_true (x : Read α) : GivesOnly (fun _ => True) x := ⟨fun _ => trivial⟩

theorem givesOnly_pure {a : α} (ha : P a) : GivesOnly P (pure a) := by
  constructor
  intro r b r' h
  cases h
  exact ha

theorem givesOnly_fail (e : Error) : GivesOnly P (fail e) := by
  constructor
  intro r a r' h
  cases h

theorem GivesOnly.bind {x : Read α} {f : α → Read β} (hx : GivesOnly P x)
    (hf : ∀ a, P a → GivesOnly Q (f a)) : GivesOnly Q (x >>= f) := by
  constructor
  intro r b r' h
  rw [Action.bind_apply] at h
  cases hr : x r with
  | mk result s =>
    rw [hr] at h
    cases result with
    | error e => cases h
    | ok a => exact (hf a (hx.of_eq hr)).of_eq h

/-- Nothing needs to be known about what comes first. -/
theorem GivesOnly.after (x : Read α) {f : α → Read β} (hf : ∀ a, GivesOnly Q (f a)) :
    GivesOnly Q (x >>= f) :=
  (givesOnly_true x).bind fun a _ => hf a

theorem GivesOnly.within {x : Read α} (hx : GivesOnly P x) (c : Context) :
    GivesOnly P (Read.within c x) := by
  constructor
  intro r a r' h
  simp only [Read.within, Action.mapError] at h
  cases hr : x r with
  | mk result s =>
    rw [hr] at h
    cases result with
    | error e => cases h
    | ok b =>
      cases h
      exact hx.of_eq hr

theorem GivesOnly.nested {x : Read α} (hx : GivesOnly P x) : GivesOnly P (Read.nested x) := by
  apply GivesOnly.after
  intro _
  constructor
  intro r a r' h
  -- Leaving does not touch the result.
  have hresult : (x r).1 = .ok a := congrArg Prod.fst h
  exact hx.of_eq (Prod.ext hresult rfl)

theorem GivesOnly.repeatFrom {f : Nat → Read α} (hf : ∀ i, GivesOnly P (f i)) (start count : Nat) :
    GivesOnly (fun as => ∀ a ∈ as, P a) (repeatFrom f start count) := by
  induction count generalizing start with
  | zero =>
    apply givesOnly_pure
    intro a ha
    cases ha
  | succ count ih =>
    apply (hf start).bind
    intro a ha
    apply (ih (start + 1)).bind
    intro as has
    apply givesOnly_pure
    exact List.forall_mem_cons.2 ⟨ha, has⟩

/-- Putting entries in order makes no new values. -/
theorem givesOnly_ordered {entries : List Order.Entry} (duplicate : Bytes → Cause)
    (h : ∀ e ∈ entries, e.2.Literal) : GivesOnly Value.Literal (ordered duplicate entries) := by
  have hsorted : GivesOnly (fun values => ∀ v ∈ values, v.Literal)
      (ofResult ((Order.sortUnique entries).mapError fun bs => .decode (duplicate bs))) := by
    constructor
    intro r values r' hvalues v hv
    have hok := Except.mapError_eq_ok.1 (Except.mapError_eq_ok.1 (congrArg Prod.fst hvalues))
    obtain ⟨key, hentry⟩ := Order.mem_of_sortUnique hok hv
    exact h _ hentry
  apply hsorted.bind
  intro values hvalues
  exact givesOnly_pure (.array hvalues)

end Read

/-! ## Codecs -/

namespace Codec

open Read Value

variable {env : Registries} {op : ReadOperation}

mutual

theorem readWith_literal (hop : ∀ link, GivesOnly Literal (op link)) (c : Codec) :
    GivesOnly Literal (readWith op c) := by
  match c with
  | .int _ | .varint | .time =>
    simp only [readWith]
    exact .after _ fun _ => givesOnly_pure (.int _)
  | .bool =>
    simp only [readWith]
    exact .after _ fun b => givesOnly_pure (.bool b)
  | .bytes _ =>
    simp only [readWith]
    exact .after _ fun bs => givesOnly_pure (.bytes bs)
  | .string | .objectId .. | .anyObjectId | .publicKey .. | .address .. =>
    simp only [readWith]
    exact .after _ fun _ => givesOnly_pure (.str _)
  | .void =>
    simp only [readWith]
    exact givesOnly_pure .null
  | .operation link =>
    simp only [readWith]
    exact hop link
  | .vector c =>
    simp only [readWith]
    apply GivesOnly.after
    intro n
    apply (GivesOnly.repeatFrom (fun i => (readWith_literal hop c).within _) 0 n.toNat).bind
    intro items hitems
    exact givesOnly_pure (.array hitems)
  | .set c =>
    simp only [readWith]
    apply GivesOnly.after
    intro n
    refine (GivesOnly.repeatFrom (P := fun e : Order.Entry => Literal e.2) ?_ 0 n.toNat).bind ?_
    · intro i
      apply GivesOnly.after
      intro start
      apply ((readWith_literal hop c).within _).bind
      intro item hitem
      exact .after _ fun bs => givesOnly_pure hitem
    · intro entries hentries
      exact givesOnly_ordered _ hentries
  | .map c d =>
    simp only [readWith]
    apply GivesOnly.after
    intro n
    refine (GivesOnly.repeatFrom (P := fun e : Order.Entry => Literal e.2) ?_ 0 n.toNat).bind ?_
    · intro i
      apply GivesOnly.after
      intro start
      apply ((readWith_literal hop c).within _).bind
      intro key hkey
      apply GivesOnly.after
      intro bs
      apply ((readWith_literal hop d).within _).bind
      intro value hvalue
      exact givesOnly_pure (literal_pair hkey hvalue)
    · intro entries hentries
      exact givesOnly_ordered _ hentries
  | .optional c =>
    simp only [readWith]
    apply GivesOnly.after
    intro b
    split
    · exact givesOnly_pure .null
    · split
      · exact readWith_literal hop c
      · exact givesOnly_fail _
  | .pair c d =>
    simp only [readWith]
    apply ((readWith_literal hop c).within _).bind
    intro a ha
    apply ((readWith_literal hop d).within _).bind
    intro b hb
    exact givesOnly_pure (literal_pair ha hb)
  | .variant label cases =>
    simp only [readWith]
    apply GivesOnly.after
    intro tag
    apply (readCase_literal hop label tag cases).bind
    intro payload hpayload
    exact givesOnly_pure (literal_pair (.int _) hpayload)
  | .struct fields _ =>
    simp only [readWith]
    apply (readFields_literal hop fields).bind
    intro values hvalues
    apply givesOnly_pure
    exact .object fun f hf => hvalues f (Record.mem_ofList hf)

theorem readCase_literal (hop : ∀ link, GivesOnly Literal (op link)) (label : String)
    (tag : UInt32) (cases : List (UInt32 × Codec)) :
    GivesOnly Literal (readCase op label tag cases) := by
  match cases with
  | [] =>
    simp only [readCase]
    exact givesOnly_fail _
  | (t, c) :: rest =>
    simp only [readCase]
    split
    · exact ((readWith_literal hop c).within _).nested
    · exact readCase_literal hop label tag rest

theorem readFields_literal (hop : ∀ link, GivesOnly Literal (op link))
    (fields : List (String × Codec)) :
    GivesOnly (fun values => ∀ f ∈ values, Literal f.2) (readFields op fields) := by
  match fields with
  | [] =>
    simp only [readFields]
    apply givesOnly_pure
    intro f hf
    cases hf
  | (name, c) :: rest =>
    simp only [readFields]
    apply ((readWith_literal hop c).within _).bind
    intro v hv
    apply (readFields_literal hop rest).bind
    intro vs hvs
    apply givesOnly_pure
    exact List.forall_mem_cons.2 ⟨hv, hvs⟩

end

theorem readOperation_literal (fuel : Nat) (link : OperationLink) :
    GivesOnly Literal (readOperation env fuel link) := by
  induction fuel generalizing link with
  | zero => exact givesOnly_fail _
  | succ fuel ih =>
    simp only [readOperation]
    exact .after _ fun union => readWith_literal ih union

/-- Nothing that is read is lazy. -/
theorem literal_of_read {c : Codec} {r r' : Reader} {v : Value}
    (h : read env c r = (.ok v, r')) : Literal v := by
  -- The bound on operations depends on the reader, but none of them gives
  -- anything lazy.
  have hop (link : OperationLink) :
      GivesOnly Literal (fun r => readOperation env (r.room + 1) link r) :=
    ⟨fun h => (readOperation_literal _ link).of_eq h⟩
  exact (readWith_literal hop c).of_eq h

end Codec

end ChainCodec
