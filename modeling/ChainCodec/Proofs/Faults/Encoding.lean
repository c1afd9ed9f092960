import ChainCodec.Proofs.Unfolding.Normalize
import ChainCodec.Proofs.Unfolding.Render
import ChainCodec.Proofs.Unfolding.Write
import ChainCodec.Proofs.Writing.Closure

/-! # Errors while values are encoded

    Normalizing, writing and rendering refuse values; the only other thing
    that can go wrong is that an operation codec finds no table.

    Each of the three is followed through its recursion.  At an operation
    codec the recursion is bounded, and the proof relies on the bound never
    being reached: it replaces what would be done beyond it by something that
    does not fail. -/

namespace ChainCodec

/-! ## Errors of a phase -/

/-- The error refuses a value, or a table is missing, which `Q` allows for. -/
def Error.OfEncoding (Q : Prop) (e : Error) : Prop :=
  e.kind = .validation ∨ e.kind = .registry ∧ Q

theorem Error.OfEncoding.within {Q : Prop} {e : Error} (h : e.OfEncoding Q) (c : Context) :
    (e.within c).OfEncoding Q := by
  rcases h with h | ⟨h, hQ⟩
  · exact .inl (by simp [Error.within, h])
  · exact .inr ⟨by simp [Error.within, h], hQ⟩

namespace Codec

variable {env : Registries} {c d : Codec} {link : OperationLink} {Q : Prop}

/-- Some operation codec that is reached has no table. -/
def LacksTable (env : Registries) (c : Codec) : Prop :=
  ∃ link, Reaches env c (.operation link) ∧ (env link.registry).isInstalled = false

theorem LacksTable.of_reaches (h : LacksTable env d) (hd : Reaches env c d) :
    LacksTable env c := by
  obtain ⟨link, hreaches, hregistry⟩ := h
  exact ⟨link, hd.trans hreaches, hregistry⟩

theorem LacksTable.of_inside (h : LacksTable env d) (hd : Inside env c d) : LacksTable env c :=
  h.of_reaches (.head hd (.refl d))

theorem LacksTable.of_union {table : CaseTable} {label : String}
    (h : LacksTable env (.variant label table)) (htable : (env link.registry).table = .ok table) :
    LacksTable env (.operation link) := by
  obtain ⟨link', hreaches, hregistry⟩ := h
  exact ⟨link', hreaches.of_union htable (by intro h; cases h), hregistry⟩

/-- Looking for a table fails only if there is none. -/
theorem lacksTable_of_unionOf {e : Error} (h : env.unionOf link.registry = .error e) :
    e.kind = .registry ∧ LacksTable env (.operation link) := by
  cases hregistry : env link.registry with
  | empty =>
    rw [Registries.unionOf, hregistry] at h
    cases h
    exact ⟨rfl, link, .refl _, by rw [hregistry]; rfl⟩
  | dropped =>
    rw [Registries.unionOf, hregistry] at h
    cases h
    exact ⟨rfl, link, .refl _, by rw [hregistry]; rfl⟩
  | installed table =>
    rw [Registries.unionOf, hregistry] at h
    cases h

end Codec

/-! ## Results -/

/-- Whatever goes wrong belongs to encoding. -/
def Check.Raises {α : Type} (Q : Prop) (x : Except Error α) : Prop :=
  ∀ e, x = .error e → e.OfEncoding Q

namespace Check

variable {α β : Type} {Q : Prop} {x : Except Error α}

theorem Refuses.raises (h : Refuses x) : Raises Q x := fun e he => .inl (h e he)

theorem Bare.raises (h : Bare x) : Raises Q x := h.refuses.raises

theorem raises_ok (a : α) : Raises Q (.ok a) := (bare_ok a).raises

/-- What follows matters only for results. -/
theorem Raises.bind_ok {f : α → Except Error β} (hx : Raises Q x)
    (hf : ∀ a, x = .ok a → Raises Q (f a)) : Raises Q (x >>= f) := by
  intro e h
  cases x with
  | error e' =>
    cases h
    exact hx e rfl
  | ok a => exact hf a rfl e h

theorem Raises.bind {f : α → Except Error β} (hx : Raises Q x) (hf : ∀ a, Raises Q (f a)) :
    Raises Q (x >>= f) := hx.bind_ok fun a _ => hf a

theorem Raises.within (h : Raises Q x) (c : Context) : Raises Q (Check.within c x) := by
  intro e he
  cases x with
  | error e' =>
    cases he
    exact (h e' rfl).within c
  | ok a => cases he

theorem Raises.traverseFrom {f : Nat → α → Except Error β} (hf : ∀ i a, Raises Q (f i a))
    (start : Nat) (as : List α) : Raises Q (traverseFrom f start as) := by
  induction as generalizing start with
  | nil => exact raises_ok []
  | cons a as ih =>
    exact (hf start a).bind fun b => (ih (start + 1)).bind fun bs => raises_ok (b :: bs)

theorem raises_unionOf {env : Registries} {link : OperationLink}
    (h : Codec.LacksTable env (.operation link) → Q) : Raises Q (env.unionOf link.registry) := by
  intro e he
  obtain ⟨hkind, hlacks⟩ := Codec.lacksTable_of_unionOf he
  exact .inr ⟨hkind, h hlacks⟩

end Check

namespace Codec

open Check

variable {env : Registries} {Q : Prop}

/-! ## Writing -/

/-- Whatever goes wrong in an action belongs to encoding. -/
def WriteRaises {α : Type} (Q : Prop) (x : Write α) : Prop :=
  ∀ w e w', x w = (.error e, w') → e.OfEncoding Q

theorem writeRaises_lift {α : Type} {y : Except Error α} (h : Raises Q y) :
    WriteRaises Q (liftM y : Write α) := by
  intro w e w' hy
  exact h e (congrArg Prod.fst hy)

theorem closed_writeRaises : Write.Closed fun x => WriteRaises Q x where
  checked h := writeRaises_lift h.raises
  bytes bs := by
    intro w e w' h
    cases h
  bind := by
    intro α β x f hx hf w e w' h
    rcases hxw : x w with ⟨e' | a, w₁⟩
    · rw [Action.bind_error hxw] at h
      cases h
      exact hx w e _ hxw
    · rw [Action.bind_ok hxw] at h
      exact hf a w₁ e w' h
  within := by
    intro α x c hx w e w' h
    rcases hxw : x w with ⟨e' | a, w₁⟩
    · simp only [Write.within, Action.mapError, hxw] at h
      cases h
      exact (hx w e' _ hxw).within c
    · simp only [Write.within, Action.mapError, hxw] at h
      cases h

theorem writeOperation_raises {fuel : Nat} {link : OperationLink} {v : Value}
    (hQ : LacksTable env (.operation link) → Q) (h : v.arrayDepth < fuel) :
    WriteRaises Q (writeOperation env fuel link v) := by
  induction fuel generalizing link v with
  | zero => omega
  | succ fuel ih =>
    intro w e w' he
    simp only [writeOperation] at he
    cases hunion : env.unionOf link.registry with
    | error e' =>
      rw [hunion] at he
      cases he
      exact raises_unionOf hQ e hunion
    | ok union =>
      obtain ⟨table, htable, rfl⟩ := Registries.unionOf_eq_ok.1 hunion
      -- Operations inside the union nest less deep, so the guard changes nothing.
      let guarded : WriteOperation := fun link x =>
        if x.arrayDepth < fuel then writeOperation env fuel link x else pure ()
      have hguarded : writeWith (writeOperation env fuel) (.variant operationLabel table) v =
          writeWith guarded (.variant operationLabel table) v :=
        writeWith_variant_congr _ table v fun link x hx => (if_pos (by omega)).symm
      rw [hunion] at he
      change writeWith (writeOperation env fuel) (.variant operationLabel table) v w = _ at he
      rw [hguarded] at he
      refine writeWith_closed env closed_writeRaises _ (fun link' hlink' x => ?_) v w e w' he
      by_cases hx : x.arrayDepth < fuel
      · simp only [guarded, if_pos hx]
        exact ih (fun hlacks => hQ ((hlacks.of_reaches hlink').of_union htable)) hx
      · simp only [guarded, if_neg hx]
        exact closed_writeRaises.pure ()

/-- Writing fails because a value is not canonical, or for want of a table. -/
theorem write_raises {c : Codec} (hQ : LacksTable env c → Q) (v : Value) :
    WriteRaises Q (write env c v) := by
  refine writeWith_closed env closed_writeRaises c (fun link hlink x => ?_) v
  exact writeOperation_raises (fun hlacks => hQ (hlacks.of_reaches hlink)) (Nat.lt_succ_self _)

theorem encode_raises {c : Codec} (hQ : LacksTable env c → Q) (v : Value) :
    Raises Q (encode env c v) := by
  intro e he
  rcases hw : write env c v .empty with ⟨e' | a, w⟩
  · simp only [encode, Write.run, hw] at he
    cases he
    exact write_raises hQ v .empty e w hw
  · simp only [encode, Write.run, hw] at he
    cases he

/-! ## Normalizing -/

/-- Operations with this codec fail as values are encoded. -/
def OperationsRaise {α : Type} (env : Registries) (Q : Prop)
    (op : OperationLink → Value → Except Error α) : Prop :=
  ∀ link, (LacksTable env (.operation link) → Q) → ∀ v, Raises Q (op link v)

section Normalize

variable {bytesOf : EncodeElement} {op : NormalizeOperation}

mutual

theorem normalizeWith_raises (hbytes : ∀ d, (LacksTable env d → Q) → ∀ v, Raises Q (bytesOf d v))
    (hop : OperationsRaise env Q op) (c : Codec) (hQ : LacksTable env c → Q) (v : Value) :
    Raises Q (normalizeWith bytesOf op c v) := by
  match c with
  | .int _ | .varint =>
    simp only [normalizeWith]
    exact (bare_integer _ _ _ _).raises.bind fun _ => raises_ok _
  | .bool =>
    simp only [normalizeWith]
    exact (bare_bool _).raises.bind fun _ => raises_ok _
  | .bytes size =>
    simp only [normalizeWith]
    exact (bare_bytes _).raises.bind fun bs =>
      (bare_byteCount size bs).raises.bind fun _ => raises_ok _
  | .string =>
    simp only [normalizeWith]
    exact (bare_string _).raises.bind fun _ => raises_ok _
  | .time =>
    simp only [normalizeWith]
    exact (bare_seconds _).raises.bind fun _ => raises_ok _
  | .void =>
    simp only [normalizeWith]
    split
    · exact raises_ok _
    · exact raises_ok _
    · exact (bare_mismatch _ _).raises
  | .vector c =>
    simp only [normalizeWith]
    have hc := normalizeWith_raises hbytes hop c fun h => hQ (h.of_inside .vector)
    refine (bare_array _ _).raises.bind fun items => ?_
    exact (Raises.traverseFrom (fun i item => (hc item).within _) 0 items).bind fun _ => raises_ok _
  | .set c =>
    simp only [normalizeWith]
    have hQ' : LacksTable env c → Q := fun h => hQ (h.of_inside .set)
    have hc := normalizeWith_raises hbytes hop c hQ'
    refine (bare_elements _).raises.bind fun items => ?_
    refine (Raises.traverseFrom (fun i item => ?_) 0 items).bind fun entries => ?_
    · exact ((hc item).within _).bind fun raw =>
        ((hbytes c hQ' raw).within _).bind fun _ => raises_ok _
    · exact (bare_mapError _ _).raises.bind fun _ => raises_ok _
  | .map c d =>
    simp only [normalizeWith]
    have hQ' : LacksTable env c → Q := fun h => hQ (h.of_inside .key)
    have hc := normalizeWith_raises hbytes hop c hQ'
    have hd := normalizeWith_raises hbytes hop d fun h => hQ (h.of_inside .value)
    refine (bare_entries _ _).raises.bind fun pairs => ?_
    refine (Raises.traverseFrom (fun i p => ?_) 0 pairs).bind fun entries => ?_
    · exact ((hc p.1).within _).bind fun key => ((hd p.2).within _).bind fun _ =>
        ((hbytes c hQ' key).within _).bind fun _ => raises_ok _
    · exact (bare_mapError _ _).raises.bind fun _ => raises_ok _
  | .optional c =>
    simp only [normalizeWith]
    split
    · exact raises_ok _
    · exact normalizeWith_raises hbytes hop c (fun h => hQ (h.of_inside .optional)) _
  | .pair c d =>
    simp only [normalizeWith]
    have hc := normalizeWith_raises hbytes hop c fun h => hQ (h.of_inside .first)
    have hd := normalizeWith_raises hbytes hop d fun h => hQ (h.of_inside .second)
    exact (bare_pair _).raises.bind fun p => ((hc p.1).within _).bind fun _ =>
      ((hd p.2).within _).bind fun _ => raises_ok _
  | .variant label cases =>
    simp only [normalizeWith]
    have hcase := fun tag => normalizeCase_raises hbytes hop label tag cases
      fun case hcase h => hQ (h.of_inside (.case hcase))
    exact (bare_tagged _).raises.bind fun p => (bare_tag _).raises.bind fun tag =>
      (hcase tag p.2).bind fun _ => raises_ok _
  | .struct fields ignoreUnknown =>
    simp only [normalizeWith]
    have hfields := normalizeFields_raises hbytes hop fields
      fun field hfield h => hQ (h.of_inside (.field hfield))
    exact (bare_object _).raises.bind fun record =>
      (bare_keys ignoreUnknown _ record).raises.bind fun _ =>
        (hfields record).bind fun _ => raises_ok _
  | .objectId space type more =>
    simp only [normalizeWith]
    exact (bare_objectId space type more _).raises.bind fun _ => raises_ok _
  | .anyObjectId =>
    simp only [normalizeWith]
    exact (bare_anyObjectId _).raises.bind fun id =>
      (bare_packed id).raises.bind fun _ => raises_ok _
  | .publicKey scheme start =>
    simp only [normalizeWith]
    exact (bare_publicKey scheme start _).raises.bind fun _ => raises_ok _
  | .address scheme start =>
    simp only [normalizeWith]
    exact (bare_address scheme start _).raises.bind fun _ => raises_ok _
  | .operation link =>
    simp only [normalizeWith]
    exact hop link hQ v

theorem normalizeCase_raises (hbytes : ∀ d, (LacksTable env d → Q) → ∀ v, Raises Q (bytesOf d v))
    (hop : OperationsRaise env Q op) (label : String) (tag : UInt32)
    (cases : List (UInt32 × Codec)) (hQ : ∀ case ∈ cases, LacksTable env case.2 → Q)
    (payload : Value) : Raises Q (normalizeCase bytesOf op label tag cases payload) := by
  match cases with
  | [] =>
    simp only [normalizeCase]
    exact (bare_fail _).raises
  | (t, c) :: rest =>
    simp only [normalizeCase]
    split
    · exact (normalizeWith_raises hbytes hop c (hQ (t, c) (by simp)) payload).within _
    · exact normalizeCase_raises hbytes hop label tag rest
        (fun case hcase => hQ case (by simp [hcase])) payload

theorem normalizeFields_raises
    (hbytes : ∀ d, (LacksTable env d → Q) → ∀ v, Raises Q (bytesOf d v))
    (hop : OperationsRaise env Q op) (fields : List (String × Codec))
    (hQ : ∀ field ∈ fields, LacksTable env field.2 → Q) (record : Record Value) :
    Raises Q (normalizeFields bytesOf op fields record) := by
  match fields with
  | [] =>
    simp only [normalizeFields]
    exact raises_ok _
  | (name, c) :: rest =>
    simp only [normalizeFields]
    have hc := normalizeWith_raises hbytes hop c (hQ (name, c) (by simp))
    have hrest := normalizeFields_raises hbytes hop rest
      (fun field hfield => hQ field (by simp [hfield])) record
    exact ((hc _).within _).bind fun _ => hrest.bind fun _ => raises_ok _

end

end Normalize

theorem normalizeOperation_raises {fuel : Nat} {link : OperationLink} {v : Value}
    (hQ : LacksTable env (.operation link) → Q) (h : v.arrayDepth < fuel) :
    Raises Q (normalizeOperation env fuel link v) := by
  induction fuel generalizing link v with
  | zero => omega
  | succ fuel ih =>
    simp only [normalizeOperation]
    refine (raises_unionOf hQ).bind_ok fun union hunion => ?_
    obtain ⟨table, htable, rfl⟩ := Registries.unionOf_eq_ok.1 hunion
    let guarded : NormalizeOperation := fun link x =>
      if x.arrayDepth < fuel then normalizeOperation env fuel link x else .ok .null
    have hinput := arrayDepth_operationInput_le link v
    have hguarded : normalizeWith (encode env) (normalizeOperation env fuel)
          (.variant operationLabel table) (operationInput link v) =
        normalizeWith (encode env) guarded (.variant operationLabel table)
          (operationInput link v) :=
      normalizeWith_variant_congr _ table _ fun link x hx => (if_pos (by omega)).symm
    rw [hguarded]
    refine normalizeWith_raises (fun _ => encode_raises) (fun link' hQ' x => ?_) _
      (fun hlacks => hQ (hlacks.of_union htable)) _
    by_cases hx : x.arrayDepth < fuel
    · simp only [guarded, if_pos hx]
      exact ih hQ' hx
    · simp only [guarded, if_neg hx]
      exact raises_ok _

/-- Normalizing fails because a value is refused, or for want of a table. -/
theorem normalize_raises {c : Codec} (hQ : LacksTable env c → Q) (v : Value) :
    Raises Q (normalize env c v) :=
  normalizeWith_raises (fun _ => encode_raises)
    (fun _ hQ _ => normalizeOperation_raises hQ (Nat.lt_succ_self _)) c hQ v

/-! ## Rendering -/

section Render

variable {op : RenderOperation}

mutual

theorem renderWith_raises (hop : OperationsRaise env Q op) (c : Codec)
    (hQ : LacksTable env c → Q) (v : Value) : Raises Q (renderWith op c v) := by
  match c with
  | .int _ =>
    simp only [renderWith]
    exact (bare_canonicalInteger _ v).raises.bind fun _ => raises_ok _
  | .varint | .bool | .string | .void =>
    simp only [renderWith]
    exact raises_ok _
  | .bytes _ =>
    simp only [renderWith]
    exact (bare_canonicalBytes v).raises.bind fun _ => raises_ok _
  | .time =>
    simp only [renderWith]
    refine (bare_canonicalInteger _ v).raises.bind fun n => ?_
    split
    · exact raises_ok _
    · exact (bare_fail _).raises
  | .vector c =>
    simp only [renderWith]
    have hc := renderWith_raises hop c fun h => hQ (h.of_inside .vector)
    refine (bare_array _ v).raises.bind fun items => ?_
    exact (Raises.traverseFrom (fun i item => (hc item).within _) 0 items).bind fun _ => raises_ok _
  | .set c =>
    simp only [renderWith]
    have hc := renderWith_raises hop c fun h => hQ (h.of_inside .set)
    refine (bare_array _ v).raises.bind fun items => ?_
    exact (Raises.traverseFrom (fun i item => (hc item).within _) 0 items).bind fun _ => raises_ok _
  | .map c d =>
    simp only [renderWith]
    have hc := renderWith_raises hop c fun h => hQ (h.of_inside .key)
    have hd := renderWith_raises hop d fun h => hQ (h.of_inside .value)
    refine (bare_canonicalEntries v).raises.bind fun items => ?_
    refine (Raises.traverseFrom (fun i entry => ?_) 0 items).bind fun _ => raises_ok _
    exact (bare_canonicalEntry i entry).raises.bind fun p => ((hc p.1).within _).bind fun _ =>
      ((hd p.2).within _).bind fun _ => raises_ok _
  | .optional c =>
    simp only [renderWith]
    split
    · exact raises_ok _
    · exact renderWith_raises hop c (fun h => hQ (h.of_inside .optional)) v
  | .pair c d =>
    simp only [renderWith]
    have hc := renderWith_raises hop c fun h => hQ (h.of_inside .first)
    have hd := renderWith_raises hop d fun h => hQ (h.of_inside .second)
    exact (bare_pair v).raises.bind fun p => (hc p.1).bind fun _ =>
      (hd p.2).bind fun _ => raises_ok _
  | .variant label cases =>
    simp only [renderWith]
    have hcase := fun tag => renderCase_raises hop label tag cases
      fun case hcase h => hQ (h.of_inside (.case hcase))
    exact (bare_tagged v).raises.bind fun p => (bare_tag p.1).raises.bind fun tag =>
      (hcase tag p.2).bind fun _ => raises_ok _
  | .struct fields _ =>
    simp only [renderWith]
    have hfields := renderFields_raises hop fields
      fun field hfield h => hQ (h.of_inside (.field hfield))
    exact (bare_object v).raises.bind fun record => (hfields record).bind fun _ => raises_ok _
  | .objectId space type more =>
    simp only [renderWith]
    exact (bare_objectId space type more v).raises.bind fun _ => raises_ok _
  | .anyObjectId =>
    simp only [renderWith]
    exact (bare_anyObjectId v).raises.bind fun _ => raises_ok _
  | .publicKey _ _ =>
    simp only [renderWith]
    split
    · exact raises_ok _
    · exact (bare_mismatch _ _).raises
  | .address scheme start =>
    simp only [renderWith]
    exact (bare_address scheme start v).raises.bind fun _ => raises_ok _
  | .operation link =>
    simp only [renderWith]
    exact hop link hQ v

theorem renderCase_raises (hop : OperationsRaise env Q op) (label : String) (tag : UInt32)
    (cases : List (UInt32 × Codec)) (hQ : ∀ case ∈ cases, LacksTable env case.2 → Q)
    (payload : Value) : Raises Q (renderCase op label tag cases payload) := by
  match cases with
  | [] =>
    simp only [renderCase]
    exact (bare_fail _).raises
  | (t, c) :: rest =>
    simp only [renderCase]
    split
    · exact (renderWith_raises hop c (hQ (t, c) (by simp)) payload).within _
    · exact renderCase_raises hop label tag rest
        (fun case hcase => hQ case (by simp [hcase])) payload

theorem renderFields_raises (hop : OperationsRaise env Q op) (fields : List (String × Codec))
    (hQ : ∀ field ∈ fields, LacksTable env field.2 → Q) (record : Record Value) :
    Raises Q (renderFields op fields record) := by
  match fields with
  | [] =>
    simp only [renderFields]
    exact raises_ok _
  | (name, c) :: rest =>
    simp only [renderFields]
    have hc := renderWith_raises hop c (hQ (name, c) (by simp))
    have hrest := renderFields_raises hop rest
      (fun field hfield => hQ field (by simp [hfield])) record
    split
    · exact hrest
    · exact ((hc _).within _).bind fun _ => hrest.bind fun _ => raises_ok _

end

end Render

theorem renderOperation_raises {fuel : Nat} {link : OperationLink} {v : Value}
    (hQ : LacksTable env (.operation link) → Q) (h : v.arrayDepth < fuel) :
    Raises Q (renderOperation env fuel link v) := by
  induction fuel generalizing link v with
  | zero => omega
  | succ fuel ih =>
    simp only [renderOperation]
    refine (raises_unionOf hQ).bind_ok fun union hunion => ?_
    obtain ⟨table, htable, rfl⟩ := Registries.unionOf_eq_ok.1 hunion
    let guarded : RenderOperation := fun link x =>
      if x.arrayDepth < fuel then renderOperation env fuel link x else .ok .null
    have hguarded : renderWith (renderOperation env fuel) (.variant operationLabel table) v =
        renderWith guarded (.variant operationLabel table) v :=
      renderWith_variant_congr _ table v fun link x hx => (if_pos (by omega)).symm
    rw [hguarded]
    refine renderWith_raises (fun link' hQ' x => ?_) _
      (fun hlacks => hQ (hlacks.of_union htable)) v
    by_cases hx : x.arrayDepth < fuel
    · simp only [guarded, if_pos hx]
      exact ih hQ' hx
    · simp only [guarded, if_neg hx]
      exact raises_ok _

/-- Rendering fails because a value is not canonical, or for want of a
    table. -/
theorem render_raises {c : Codec} (hQ : LacksTable env c → Q) (v : Value) :
    Raises Q (render env c v) :=
  renderWith_raises (fun _ hQ _ => renderOperation_raises hQ (Nat.lt_succ_self _)) c hQ v

end Codec

end ChainCodec
