import ChainCodec.Proofs.Shape
import ChainCodec.Proofs.Unfolding.Normalize
import ChainCodec.Proofs.Unfolding.Read
import ChainCodec.Proofs.Unfolding.Render
import ChainCodec.Proofs.Unfolding.Write

/-! # The first table counts

    While tables are installed in a registry it is used through an operation codec
    and through a copy of that codec which fills in fees.  Whatever the order of
    installs and uses, the first table decides: uses before it and installs after it
    are refused, and uses after it are answered by the tagged union of its cases.

    A use leaves the registry alone, and so does an install that is refused.  Hence
    the registry after a sequence of steps depends on the first install only. -/

namespace ChainCodec

/-! ## Case tables -/

namespace Codec

theorem lookup_cons (t tag : UInt32) (c : Codec) (rest : CaseTable) :
    ((t, c) :: rest).lookup tag = if t = tag then some c else rest.lookup tag := by
  by_cases h : t = tag
  · rw [h, List.lookup_cons_self, if_pos rfl]
  · rw [lookup_cons_ne h, if_neg h]

/-- The case takes the place of all others with its tag. -/
theorem lookup_insertCase (t tag : UInt32) (c : Codec) (table : CaseTable) :
    (insertCase t c table).lookup tag = if t = tag then some c else table.lookup tag := by
  fun_induction insertCase t c table with
  | case1 => exact lookup_cons t tag c []
  | case2 s d rest => exact lookup_cons t tag c _
  | case3 d rest _ =>
    rw [lookup_cons, lookup_cons]
    split <;> rfl
  | case4 s d rest _ hne ih =>
    rw [lookup_cons, lookup_cons, ih]
    by_cases hs : s = tag
    · subst hs
      rw [if_pos rfl, if_pos rfl, if_neg hne]
    · rw [if_neg hs, if_neg hs]

/-- Of several cases with one tag the last one given counts. -/
theorem lookup_caseTable (cases : CaseTable) (tag : UInt32) :
    (caseTable cases).lookup tag = cases.reverse.lookup tag := by
  -- Cases that are given later stand before those that are in the table already.
  have hfold (table : CaseTable) :
      (cases.foldl (fun table p => insertCase p.1 p.2 table) table).lookup tag =
        (cases.reverse.lookup tag).or (table.lookup tag) := by
    induction cases generalizing table with
    | nil => rfl
    | cons p cases ih =>
      obtain ⟨t, c⟩ := p
      rw [List.foldl_cons, ih, lookup_insertCase, List.reverse_cons, List.lookup_append,
        Option.or_assoc, lookup_cons]
      split <;> rfl
  exact (hfold []).trans (by rw [List.lookup_nil, Option.or_none])

end Codec

/-! ## Uses of a codec -/

/-- What a codec is asked to do. -/
inductive Query where
  | normalize (v : Value)
  | serialize (v : Value)
  | write (raw : Value) (w : Writer)
  | deserialize (bs : Bytes)
  | render (raw : Value)

/-- What comes of a query, or of an install. -/
inductive Answer where
  | installed (result : Except Error Unit)
  | value (result : Except Error Value)
  | bytes (result : Except Error Bytes)
  /-- The writer is left with what was written, even if the write failed. -/
  | written (result : Except Error Unit) (w : Writer)
  | read (result : Except Halt Value)
  | json (result : Except Error Json)

namespace Query

def answer (env : Registries) (c : Codec) : Query → Answer
  | .normalize v => .value (c.normalize env v)
  | .serialize v => .bytes (c.serialize env v)
  | .write raw w => .written (c.write env raw w).1 (c.write env raw w).2
  | .deserialize bs => .read (c.deserialize env bs)
  | .render raw => .json (c.render env raw)

/-- The query fails, and nothing is written. -/
def refused (e : Error) : Query → Answer
  | .normalize _ => .value (.error e)
  | .serialize _ => .bytes (.error e)
  | .write _ w => .written (.error e) w
  | .deserialize _ => .read (.error (.error e))
  | .render _ => .json (.error e)

/-- The query with a fee filled in where a value is normalized. -/
def withFee (asset : String) : Query → Query
  | .normalize v => .normalize (Fee.fillIn asset v.resolve)
  | .serialize v => .serialize (Fee.fillIn asset v.resolve)
  | .write raw w => .write raw w
  | .deserialize bs => .deserialize bs
  | .render raw => .render raw

variable {env : Registries} {link : OperationLink}

/-- Without a table nothing is looked at, not even to fill in a fee. -/
theorem answer_of_no_table {e : Error} (h : (env link.registry).table = .error e) (q : Query) :
    q.answer env (.operation link) = q.refused e := by
  have hunion : env.unionOf link.registry = .error e := by
    rw [Registries.unionOf, h]
    rfl
  cases q with
  | normalize v =>
    rw [answer, Codec.normalize_operation, hunion]
    rfl
  | serialize v =>
    rw [answer, Codec.serialize, Codec.normalize_operation, hunion]
    rfl
  | write raw w =>
    rw [answer, Codec.write_operation, hunion]
    rfl
  | deserialize bs =>
    rw [answer, Codec.deserialize, Codec.read_operation, hunion]
    rfl
  | render raw =>
    rw [answer, Codec.render_operation, hunion]
    rfl

/-- With a table it is the union that answers. -/
theorem answer_of_table {table : CaseTable} (h : (env link.registry).table = .ok table)
    (q : Query) :
    q.answer env (.operation link) =
      (if link.zeroFee then q.withFee link.feeAsset else q).answer env
        (.variant operationLabel table) := by
  have hunion : env.unionOf link.registry = .ok (.variant operationLabel table) :=
    Registries.unionOf_eq_ok.2 ⟨table, h, rfl⟩
  have hwrite (raw : Value) : Codec.write env (.operation link) raw =
      Codec.write env (.variant operationLabel table) raw := by
    rw [Codec.write_operation, hunion]
    rfl
  -- Queries that do not normalize are the same for both kinds of codecs.
  cases q with
  | normalize v =>
    rw [answer, Codec.normalize_operation, hunion, Codec.operationInput]
    split <;> rfl
  | serialize v =>
    rw [answer, Codec.serialize, Codec.normalize_operation, hunion, Codec.operationInput]
    simp only [Codec.encode, hwrite]
    split <;> rfl
  | write raw w => rw [answer, hwrite, withFee, ite_self, answer]
  | deserialize bs =>
    rw [answer, Codec.deserialize, Codec.read_operation, hunion, withFee, ite_self]
    rfl
  | render raw =>
    rw [answer, Codec.render_operation, hunion, withFee, ite_self]
    rfl

end Query

/-! ## Sequences of installs and uses -/

namespace Session

inductive Step where
  | install (table : CaseTable)
  /-- A query to the codec, or to its copy that fills in fees. -/
  | use (fillsIn : Bool) (q : Query)

/-- The table of the first install. -/
def firstTable : List Step → Option CaseTable
  | [] => none
  | .install table :: _ => some table
  | .use _ _ :: rest => firstTable rest

section Steps

variable (link : OperationLink) (others : Registries)

/-- What becomes of a registry, all others being as they are. -/
def step (r : Registry) : Step → Answer × Registry
  | .install table =>
      match r.install table with
      | .ok r' => (.installed (.ok ()), r')
      | .error e => (.installed (.error e), r)
  | .use fillsIn q =>
      (q.answer (others.set link.registry r) (.operation { link with zeroFee := fillsIn }), r)

def answersFrom (r : Registry) : List Step → List Answer
  | [] => []
  | s :: rest => (step link others r s).1 :: answersFrom (step link others r s).2 rest

def registryAfter (r : Registry) (steps : List Step) : Registry :=
  steps.foldl (fun r s => (step link others r s).2) r

/-- The answers to steps on a fresh registry. -/
def answers (steps : List Step) : List Answer := answersFrom link others .empty steps

/-! ### Runs -/

variable {link others} {r : Registry} {s : Step} {before after : List Step}

theorem length_answersFrom : (answersFrom link others r before).length = before.length := by
  induction before generalizing r with
  | nil => rfl
  | cons s before ih => rw [answersFrom, List.length_cons, ih, List.length_cons]

theorem answersFrom_append :
    answersFrom link others r (before ++ after) =
      answersFrom link others r before ++
        answersFrom link others (registryAfter link others r before) after := by
  induction before generalizing r with
  | nil => rfl
  | cons s before ih => rw [List.cons_append, answersFrom, ih]; rfl

/-- A step that leaves the registry as it is adds its own answer to the others. -/
theorem answers_insert (h : (step link others (registryAfter link others .empty before) s).2 =
      registryAfter link others .empty before) :
    answers link others (before ++ s :: after) =
      (answers link others (before ++ after)).insertIdx before.length
        (step link others (registryAfter link others .empty before) s).1 := by
  have hlength : (answersFrom link others .empty before).length = before.length :=
    length_answersFrom
  rw [answers, answers, answersFrom_append, answersFrom_append, answersFrom, h, ← hlength]
  generalize answersFrom link others .empty before = as
  induction as with
  | nil => rfl
  | cons a as ih => rw [List.cons_append, List.length_cons, List.cons_append, ih]; rfl

theorem getElem?_answers :
    (answers link others (before ++ s :: after))[before.length]? =
      some (step link others (registryAfter link others .empty before) s).1 := by
  have hlength : (answersFrom link others .empty before).length = before.length :=
    length_answersFrom
  rw [answers, answersFrom_append, answersFrom, List.getElem?_append_right (Nat.le_of_eq hlength),
    hlength, Nat.sub_self, List.getElem?_cons_zero]

/-! ### The registry -/

/-- What is installed stays, whatever is tried. -/
theorem step_installed (table : CaseTable) (s : Step) :
    (step link others (.installed table) s).2 = .installed table := by
  cases s with
  | install table' => rfl
  | use fillsIn q => rfl

theorem registryAfter_installed (table : CaseTable) (steps : List Step) :
    registryAfter link others (.installed table) steps = .installed table := by
  induction steps with
  | nil => rfl
  | cons s steps ih =>
    rw [registryAfter, List.foldl_cons, step_installed]
    exact ih

/-- Before the first install the registry is empty, and then it has that table. -/
theorem registryAfter_empty (steps : List Step) :
    registryAfter link others .empty steps =
      match firstTable steps with
      | none => .empty
      | some table => .installed (Codec.caseTable table) := by
  induction steps with
  | nil => rfl
  | cons s steps ih =>
    cases s with
    | install table => exact registryAfter_installed _ steps
    | use fillsIn q => exact ih

/-! ### The first table -/

end Steps

open Codec in
/-- A registry is installed once and for all.  The first install succeeds; until
    then every use is refused for want of a table.  A later install is refused and
    changes no other answer.  A use after the first install is answered by the
    tagged union of its table, in which of several cases with one tag the last
    counts, with the fee filled in first where that is asked for; it changes no
    other answer either. -/
theorem first_table_counts (link : OperationLink) (others : Registries)
    (before after : List Step) :
    match firstTable before with
    | none =>
        (∀ table, (answers link others (before ++ .install table :: after))[before.length]? =
          some (.installed (.ok ()))) ∧
        ∀ fillsIn q, answers link others (before ++ .use fillsIn q :: after) =
          (answers link others (before ++ after)).insertIdx before.length
            (q.refused (.ofRegistry .notInstalled))
    | some table =>
        (∀ table', answers link others (before ++ .install table' :: after) =
          (answers link others (before ++ after)).insertIdx before.length
            (.installed (.error (.ofRegistry .alreadyInstalled)))) ∧
        (∀ fillsIn q, answers link others (before ++ .use fillsIn q :: after) =
          (answers link others (before ++ after)).insertIdx before.length
            ((if fillsIn then q.withFee link.feeAsset else q).answer
              (others.set link.registry (.installed (caseTable table)))
              (.variant operationLabel (caseTable table)))) ∧
        ∀ tag, (caseTable table).lookup tag = table.reverse.lookup tag := by
  have hregistry : registryAfter link others .empty before = _ := registryAfter_empty before
  cases htable : firstTable before with
  | none =>
    rw [htable] at hregistry
    dsimp only at hregistry ⊢
    refine ⟨fun table => ?_, fun fillsIn q => ?_⟩
    · rw [getElem?_answers, hregistry]
      rfl
    · rw [answers_insert rfl, hregistry, step, Query.answer_of_no_table]
      rw [Registries.set_self]
      rfl
  | some table =>
    rw [htable] at hregistry
    dsimp only at hregistry ⊢
    refine ⟨fun table' => ?_, fun fillsIn q => ?_, lookup_caseTable table⟩
    · rw [answers_insert (hregistry ▸ step_installed _ _), hregistry]
      rfl
    · rw [answers_insert rfl, hregistry, step, Query.answer_of_table]
      rw [Registries.set_self]
      rfl

/-- The second case of the first table reads the payload, and the later table does
    not. -/
example :
    answers ⟨⟨{}, 0⟩, true, "1.3.0", false⟩ (fun _ => .empty)
      [.use true (.deserialize []), .install [(0, .u8), (0, .bool)], .install [(0, .string)],
        .use true (.deserialize [0, 1])] =
      [.read (.error (.error (.ofRegistry .notInstalled))), .installed (.ok ()),
        .installed (.error (.ofRegistry .alreadyInstalled)),
        .read (.ok (.array [.int 0, .bool true]))] := rfl

end Session

end ChainCodec
