import ChainCodec.Proofs.Dropped.Writing
import ChainCodec.Proofs.Reading.Completeness

/-! # Reading without the registry

    A codec whose operations have no tables any more reads what it read with them,
    and goes equally far, unless it comes to an operation, past parts that are
    read. -/

namespace ChainCodec

/-! ## Reads -/

/-- A read stopped for want of a table. -/
def Halt.IsRegistry (halt : Halt) : Prop := ∃ e, halt = .error e ∧ e.IsRegistry

theorem Halt.IsRegistry.within {halt : Halt} (h : halt.IsRegistry) (c : Context) :
    (halt.within c).IsRegistry := by
  obtain ⟨e, rfl, he⟩ := h
  exact ⟨e.within c, rfl, he.within c⟩

abbrev ReadDegrades {α : Type} (Q : Prop) (x y : Read α) (r : Reader) : Prop :=
  ActionDegrades Halt.IsRegistry Q x y r

namespace ReadDegrades

open Read

variable {α β : Type} {Q : Prop} {x y : Read α} {r : Reader}

theorem within (h : ReadDegrades Q x y r) (c : Context) :
    ReadDegrades Q (Read.within c x) (Read.within c y) r := h.mapError fun _ h => h.within c

/-- Inside one more union, if there is room for it. -/
theorem nested (h : ∀ s, enter r = (.ok (), s) → ReadDegrades Q x y s) :
    ReadDegrades Q (Read.nested x) (Read.nested y) r := by
  refine .after enter fun _ s hs => ?_
  rcases h s hs with h | ⟨hQ, halt, hhalt, hlost⟩
  · simp only [ActionDegrades, thenLeave, h]
    exact .refl _ _ _
  · exact .inr ⟨hQ, halt, hhalt, hlost⟩

/-- A turn of a loop has to degrade only where the turns before it succeeded. -/
theorem repeatFrom (step : Reader → α → Reader → Prop) {f g : Nat → Read β} {count : Nat}
    (hf : ∀ i r b s, f i r = (.ok b, s) → ∃ a, step r a s)
    (h : ∀ i as s, InTurn step r as s → as.length < count → ReadDegrades Q (f i) (g i) s)
    (start : Nat) : ReadDegrades Q (repeatFrom f start count) (repeatFrom g start count) r := by
  induction count generalizing r start with
  | zero => exact .refl _ _ _
  | succ count ih =>
    refine .bind (h start [] r .nil (Nat.succ_pos _)) fun b s hb => ?_
    refine .bind (ih (fun i as t has hlength => ?_) (start + 1)) fun _ _ _ => .refl _ _ _
    obtain ⟨a, ha⟩ := hf start r b s hb
    exact h i (a :: as) t (.cons ha has) (Nat.succ_lt_succ hlength)

end ReadDegrades

namespace Codec

open Read

/-! ## Coming to an operation -/

/-- One value is read, from the first reader to the second. -/
abbrev ReadStep (env : Registries) (c : Codec) (r : Reader) (v : Value) (s : Reader) : Prop :=
  read env c r = (.ok v, s)

/-- One step from the reader at which a codec starts to the reader at which it
    reads a part.  What comes before the part is read without errors. -/
inductive ReadsPart (env : Registries) : Codec → Reader → Codec → Reader → Prop
  | item {c : Codec} {r s t : Reader} {n : UInt32} {items : List Value}
      (hcount : Read.varint r = (.ok n, s)) (hitems : InTurn (ReadStep env c) s items t)
      (hlength : items.length < n.toNat) : ReadsPart env (.vector c) r c t
  | element {c : Codec} {r s t : Reader} {n : UInt32} {items : List Value}
      (hcount : Read.varint r = (.ok n, s)) (hitems : InTurn (ReadStep env c) s items t)
      (hlength : items.length < n.toNat) : ReadsPart env (.set c) r c t
  | key {c d : Codec} {r s t : Reader} {n : UInt32} {entries : List Value}
      (hcount : Read.varint r = (.ok n, s))
      (hentries : InTurn (ReadStep env (.pair c d)) s entries t)
      (hlength : entries.length < n.toNat) : ReadsPart env (.map c d) r c t
  | value {c d : Codec} {r s t t' : Reader} {n : UInt32} {entries : List Value} {key : Value}
      (hcount : Read.varint r = (.ok n, s))
      (hentries : InTurn (ReadStep env (.pair c d)) s entries t)
      (hlength : entries.length < n.toNat) (hkey : ReadStep env c t key t') :
      ReadsPart env (.map c d) r d t'
  | present {c : Codec} {r s : Reader} (hflag : Read.byte r = (.ok 1, s)) :
      ReadsPart env (.optional c) r c s
  | first {c d : Codec} {r : Reader} : ReadsPart env (.pair c d) r c r
  | second {c d : Codec} {r s : Reader} {a : Value} (ha : ReadStep env c r a s) :
      ReadsPart env (.pair c d) r d s
  | payload {label : String} {cases : CaseTable} {r s t : Reader} {tag : UInt32} {c : Codec}
      (htag : Read.varint r = (.ok tag, s)) (hcase : cases.lookup tag = some c)
      (henter : enter s = (.ok (), t)) : ReadsPart env (.variant label cases) r c t
  | field {before after : List (String × Codec)} {f : String × Codec} {ignoreUnknown : Bool}
      {r s : Reader} {v : Value}
      (hbefore : ReadStep env (.struct before ignoreUnknown) r v s) :
      ReadsPart env (.struct (before ++ f :: after) ignoreUnknown) r f.2 s

/-- Reading comes to an operation. -/
inductive ReadMeets (env : Registries) : Codec → Reader → Prop
  | here {link : OperationLink} {r : Reader} : ReadMeets env (.operation link) r
  | inside {c d : Codec} {r s : Reader} (hpart : ReadsPart env c r d s)
      (h : ReadMeets env d s) : ReadMeets env c r

variable {env env' : Registries} {c d : Codec} {r s : Reader}

theorem ReadsPart.inside (h : ReadsPart env c r d s) : Inside noTables c d := by
  cases h with
  | item => exact .vector
  | element => exact .set
  | key => exact .key
  | value => exact .value
  | present => exact .optional
  | first => exact .first
  | second => exact .second
  | payload _ hcase => exact .case (mem_of_lookup hcase)
  | field => exact .field List.mem_append_cons_self

theorem ReadMeets.reaches (h : ReadMeets env c r) :
    ∃ link, Reaches noTables c (.operation link) := by
  induction h with
  | here => exact ⟨_, .refl _⟩
  | inside hpart _ ih =>
    obtain ⟨link, hlink⟩ := ih
    exact ⟨link, .head hpart.inside hlink⟩

/-- One part is read behind a step. -/
theorem read_within_degrades (h : ReadDegrades (ReadMeets env d s) (read env d) (read env' d) s)
    (hpart : ReadsPart env c r d s) (i : Context) :
    ReadDegrades (ReadMeets env c r) (Read.within i (read env d)) (Read.within i (read env' d)) s :=
  ReadDegrades.within (h.imp (.inside hpart)) i

section Composites

variable (ihc : ∀ r, ReadDegrades (ReadMeets env c r) (read env c) (read env' c) r)
include ihc

theorem read_vector_degrades :
    ReadDegrades (ReadMeets env (.vector c) r) (read env (.vector c))
      (read env' (.vector c)) r := by
  rw [read_vector, read_vector]
  refine .after _ fun n s hcount => .bind (ReadDegrades.repeatFrom (ReadStep env c)
    (fun i r v s h => ⟨v, Read.within_eq_ok.1 h⟩) (fun i items t hitems hlength => ?_) 0)
    fun _ _ _ => .refl _ _ _
  exact read_within_degrades (ihc t) (.item hcount hitems hlength) _

theorem read_set_degrades :
    ReadDegrades (ReadMeets env (.set c) r) (read env (.set c)) (read env' (.set c)) r := by
  rw [read_set, read_set]
  refine .after _ fun n s hcount => .bind (ReadDegrades.repeatFrom (ReadStep env c)
    (fun i r e s h => ?_) (fun i items t hitems hlength => ?_) 0) fun _ _ _ => .refl _ _ _
  · simp only [Action.bind_eq_ok, position_eq_ok, Read.within_eq_ok, since_eq_ok, pure_eq_ok] at h
    obtain ⟨_, _, ⟨rfl, rfl⟩, item, _, hitem, _, _, ⟨rfl, rfl⟩, rfl, rfl⟩ := h
    exact ⟨item, hitem⟩
  · refine .after position fun _ t' hposition => ?_
    obtain ⟨rfl, rfl⟩ := position_eq_ok.1 hposition
    refine .bind (read_within_degrades (ihc t) ?_ _) fun _ _ _ => .refl _ _ _
    exact .element hcount hitems hlength

theorem read_optional_degrades :
    ReadDegrades (ReadMeets env (.optional c) r) (read env (.optional c))
      (read env' (.optional c)) r := by
  simp only [read, readWith]
  refine .after _ fun flag s hflag => ?_
  split
  · exact .refl _ _ _
  · split
    · rename_i hpresent
      subst hpresent
      exact (ihc s).imp (.inside (.present hflag))
    · exact .refl _ _ _

variable (ihd : ∀ r, ReadDegrades (ReadMeets env d r) (read env d) (read env' d) r)
include ihd

theorem read_pair_degrades :
    ReadDegrades (ReadMeets env (.pair c d) r) (read env (.pair c d))
      (read env' (.pair c d)) r := by
  rw [read_pair, read_pair]
  refine .bind (read_within_degrades (ihc r) .first _) fun a s ha => ?_
  refine .bind (read_within_degrades (ihd s) ?_ _) fun _ _ _ => .refl _ _ _
  exact .second (Read.within_eq_ok.1 ha)

theorem read_map_degrades :
    ReadDegrades (ReadMeets env (.map c d) r) (read env (.map c d)) (read env' (.map c d)) r := by
  rw [read_map, read_map]
  refine .after _ fun n s hcount => .bind (ReadDegrades.repeatFrom (ReadStep env (.pair c d))
    (fun i r e s h => ?_) (fun i entries t hentries hlength => ?_) 0) fun _ _ _ => .refl _ _ _
  · simp only [Action.bind_eq_ok, position_eq_ok, Read.within_eq_ok, since_eq_ok, pure_eq_ok] at h
    obtain ⟨_, _, ⟨rfl, rfl⟩, key, m, hkey, _, _, ⟨rfl, rfl⟩, value, _, hvalue, rfl, rfl⟩ := h
    refine ⟨.array [key, value], ?_⟩
    simp only [ReadStep, read_pair, Action.bind_eq_ok, Read.within_eq_ok, pure_eq_ok]
    exact ⟨key, m, hkey, value, _, hvalue, rfl, rfl⟩
  · refine .after position fun _ t' hposition => ?_
    obtain ⟨rfl, rfl⟩ := position_eq_ok.1 hposition
    refine .bind (read_within_degrades (ihc t) ?_ _) fun key m hkey => ?_
    · exact .key hcount hentries hlength
    · refine .after (since _) fun _ m' hsince => ?_
      obtain ⟨_, rfl⟩ := since_eq_ok.1 hsince
      refine .bind (read_within_degrades (ihd m) ?_ _) fun _ _ _ => .refl _ _ _
      exact .value hcount hentries hlength (Read.within_eq_ok.1 hkey)

end Composites

/-! ## Unions, structs and whole codecs -/

/-- A codec reads the operations inside it as their own codecs do. -/
theorem read_eq_readWith (env : Registries) (c : Codec) :
    read env c = readWith (fun link => read env (.operation link)) c := rfl

theorem readCase_of_lookup_none {op : ReadOperation} {label : String} {tag : UInt32}
    {cases : CaseTable} (h : cases.lookup tag = none) :
    readCase op label tag cases = Read.fail (.decode (.unknownTag tag)) := by
  refine (search_of_lookup_none (readCase op label tag)
    (fun c => Read.nested (Read.within (.variant label tag) (readWith op c)))
    (fun t d rest => ?_) h).trans ?_
  · rw [readCase]
  · rw [readCase]

theorem read_variant_degrades {label : String} {cases : CaseTable}
    (ih : ∀ case ∈ cases, ∀ r,
      ReadDegrades (ReadMeets env case.2 r) (read env case.2) (read env' case.2) r) :
    ReadDegrades (ReadMeets env (.variant label cases) r) (read env (.variant label cases))
      (read env' (.variant label cases)) r := by
  rw [read_eq_readWith env, read_eq_readWith env', readWith, readWith]
  refine .after _ fun tag s htag => .bind ?_ fun _ _ _ => .refl _ _ _
  cases hcase : cases.lookup tag with
  | none =>
    rw [readCase_of_lookup_none hcase, readCase_of_lookup_none hcase]
    exact .refl _ _ _
  | some c =>
    rw [readCase_of_lookup hcase, readCase_of_lookup hcase]
    refine ReadDegrades.nested fun t henter => ?_
    exact read_within_degrades (ih _ (mem_of_lookup hcase) t) (.payload htag hcase henter) _

theorem readFields_degrades {Q : Prop} {fields : List (String × Codec)}
    (ih : ∀ f ∈ fields, ∀ r,
      ReadDegrades (ReadMeets env f.2 r) (read env f.2) (read env' f.2) r)
    (hQ : ∀ before f after values s, fields = before ++ f :: after →
      readFields (fun link => read env (.operation link)) before r = (.ok values, s) →
        ReadMeets env f.2 s → Q) :
    ReadDegrades Q (readFields (fun link => read env (.operation link)) fields)
      (readFields (fun link => read env' (.operation link)) fields) r := by
  induction fields generalizing r with
  | nil => simp only [readFields]; exact .refl _ _ _
  | cons f fields ihfields =>
    simp only [readFields]
    have hhead := (ih f (by simp) r).imp (hQ [] f fields [] r rfl (by simp only [readFields]; rfl))
    refine .bind (ReadDegrades.within hhead _) fun v s hv => ?_
    refine .bind (ihfields (fun g hg => ih g (by simp [hg])) fun before g after values t hfields
      hbefore => ?_) fun _ _ _ => .refl _ _ _
    refine hQ (f :: before) g after ((f.1, v) :: values) t (by rw [hfields, List.cons_append]) ?_
    rw [readFields, Action.bind_ok hv, Action.bind_ok hbefore]
    rfl

theorem read_struct_degrades {fields : List (String × Codec)} {ignoreUnknown : Bool}
    (ih : ∀ f ∈ fields, ∀ r,
      ReadDegrades (ReadMeets env f.2 r) (read env f.2) (read env' f.2) r) :
    ReadDegrades (ReadMeets env (.struct fields ignoreUnknown) r)
      (read env (.struct fields ignoreUnknown)) (read env' (.struct fields ignoreUnknown)) r := by
  rw [read_eq_readWith env, read_eq_readWith env', readWith, readWith]
  refine .bind (readFields_degrades ih ?_) fun _ _ _ => .refl _ _ _
  rintro before f after values s rfl hbefore hmeets
  -- What comes before the field is read as a struct of its own.
  have hstruct : ReadStep env (.struct before ignoreUnknown) r
      (.object (Record.ofList values)) s := by
    rw [ReadStep, read_eq_readWith, readWith, Action.bind_ok hbefore]
    rfl
  exact .inside (.field hstruct) hmeets

/-- A codec reads without tables what it reads with them, unless it comes to an
    operation. -/
theorem read_degrades (hlost : OperationsLost env' c) :
    ReadDegrades (ReadMeets env c r) (read env c) (read env' c) r := by
  induction c using Codec.induction generalizing r with
  | h c ih =>
  have ih' (d : Codec) (hd : Inside noTables c d) (r : Reader) :
      ReadDegrades (ReadMeets env d r) (read env d) (read env' d) r :=
    ih d hd (hlost.inside hd)
  cases c with
  | vector c => exact read_vector_degrades (ih' c .vector)
  | set c => exact read_set_degrades (ih' c .set)
  | map c d => exact read_map_degrades (ih' c .key) (ih' d .value)
  | optional c => exact read_optional_degrades (ih' c .optional)
  | pair c d => exact read_pair_degrades (ih' c .first) (ih' d .second)
  | variant label cases => exact read_variant_degrades fun case h => ih' _ (.case h)
  | struct fields ignoreUnknown => exact read_struct_degrades fun f h => ih' _ (.field h)
  | operation link =>
    obtain ⟨e, he, hkind⟩ := (hlost link (.refl _)).unionOf
    refine .inr ⟨.here, .error e, ?_, e, rfl, hkind⟩
    rw [read_operation, he]
    rfl
  | int | varint | bool | bytes | string | time | void | objectId | anyObjectId | publicKey
  | address =>
    simp only [read, readWith]
    exact .refl _ _ _

end Codec

end ChainCodec
