import ChainCodec.Proofs.OrderIndependence
import ChainCodec.Proofs.SortedVectors

/-! # Keys are written where they were sorted

    The elements of a set and the keys of a map are put in order by bytes that
    are written apart, behind nothing.  In the end they are written behind
    whatever is there by then.  Since writing only appends, the bytes are the
    same: each element and each key leaves in its place just the bytes that it
    was sorted by, and none of them can fail there, because it did not fail
    before.

    What can fail is the value of a map entry.  Its key has been written by
    then, and those of all entries before it. -/

namespace ChainCodec

namespace Write

variable {α β : Type}

/-- Behind any bytes the action ends with this result and adds these bytes. -/
def Adds (x : Write α) (result : Except Error α) (bs : Bytes) : Prop :=
  ∀ w : Writer, x w = (result, w.append bs)

theorem Appending.adds {x : Write α} (hx : x.Appending) :
    Adds x (x .empty).1 (x .empty).2.bytes := hx

theorem adds_pure (a : α) : Adds (pure a) (.ok a) [] := (appending_pure a).adds

theorem adds_bytes (bs : Bytes) : Adds (bytes bs) (.ok ()) bs := fun _ => rfl

theorem adds_lift (x : Except Error α) : Adds (liftM x : Write α) x [] := (appending_lift x).adds

theorem Adds.bind {x : Write α} {f : α → Write β} {a : α} {result : Except Error β}
    {as bs : Bytes} (hx : Adds x (.ok a) as) (hf : Adds (f a) result bs) :
    Adds (x >>= f) result (as ++ bs) := by
  intro w
  rw [Action.bind_ok (hx w), hf, Writer.append_append]

/-- What was written before a failure stays, and nothing is written after it. -/
theorem Adds.bind_error {x : Write α} {e : Error} {bs : Bytes} (hx : Adds x (.error e) bs)
    (f : α → Write β) : Adds (x >>= f) (.error e) bs := by
  intro w
  rw [Action.bind_error (hx w)]

theorem Adds.within {x : Write α} {result : Except Error α} {bs : Bytes} (hx : Adds x result bs)
    (c : Context) : Adds (Write.within c x) (Check.within c result) bs := by
  intro w
  simp only [Write.within, Action.mapError, hx w]
  cases result <;> rfl

end Write

namespace Codec

open Write

variable {env : Registries} {c d : Codec} {v raw : Value}

theorem adds_of_encode {b : Bytes} (h : encode env c v = .ok b) :
    Adds (write env c v) (.ok ()) b := fun _ => write_eq_ok.2 ⟨b, h, rfl⟩

/-- How writing a collection of `n` parts ends, and what it adds, where its
    parts end and add this. -/
def behindCount (n : Nat) (parts : Except Error Unit × Bytes) : Except Error Unit × Bytes :=
  if n < UInt32.size then (parts.1, Varint.encode (UInt32.ofNat n) ++ parts.2)
  else (.error (.validation (.collectionTooLong n)), [])

theorem adds_count_bind {n : Nat} {x : Write Unit} {result : Except Error Unit} {bs : Bytes}
    (hx : Adds x result bs) :
    Adds (count n >>= fun _ => x) (behindCount n (result, bs)).1
      (behindCount n (result, bs)).2 := by
  unfold count behindCount
  split
  · exact (adds_bytes _).bind hx
  · exact (adds_lift (.error _)).bind_error _

/-- Steps are taken one after the other until one fails, and what they added by
    then stays. -/
def inTurn {β : Type} (step : Nat → β → Except Error Unit × Bytes) :
    (i : Nat) → List β → Except Error Unit × Bytes
  | _, [] => (.ok (), [])
  | i, b :: rest =>
      match step i b with
      | (.error e, as) => (.error e, as)
      | (.ok _, as) => ((inTurn step (i + 1) rest).1, as ++ (inTurn step (i + 1) rest).2)

theorem inTurn_ok {β : Type} (bytesOf : β → Bytes) (i : Nat) (items : List β) :
    inTurn (fun _ b => (.ok (), bytesOf b)) i items = (.ok (), items.flatMap bytesOf) := by
  induction items generalizing i with
  | nil => rfl
  | cons b items ih => rw [inTurn, ih, List.flatMap_cons]

theorem adds_traverseFrom {β γ : Type} {f : Nat → γ → Write Unit} {g : β → γ}
    (step : Nat → β → Except Error Unit × Bytes) {items : List β}
    (hf : ∀ i, ∀ b ∈ items, Adds (f i (g b)) (step i b).1 (step i b).2) (i : Nat) :
    Adds (do
        let _ ← traverseFrom f i (items.map g)
        pure ()) (inTurn step i items).1 (inTurn step i items).2 := by
  induction items generalizing i with
  | nil => exact adds_pure ()
  | cons b items ih =>
    have hb := hf i b (by simp)
    have hrest := ih (fun i b' hb' => hf i b' (by simp [hb'])) (i + 1)
    -- The results of the steps are dropped, wherever the list of them is put together.
    have hassoc : (do
        let _ ← traverseFrom f i ((b :: items).map g)
        pure ()) = (f i (g b) >>= fun _ => do
          let _ ← traverseFrom f (i + 1) (items.map g)
          pure ()) := by
      simp only [List.map_cons, traverseFrom, bind_assoc, pure_bind]
    rw [hassoc, inTurn]
    rcases hstep : step i b with ⟨e | u, as⟩
    · rw [hstep] at hb
      exact hb.bind_error _
    · rw [hstep] at hb
      exact hb.bind hrest

/-! ## Sets and maps -/

def writeElement (env : Registries) (c : Codec) (i : Nat) (item : Value) : Write Unit :=
  Write.within (.element i) (write env c item)

/-- The key is written first. -/
def writeEntry (env : Registries) (c d : Codec) (i : Nat) (entry : Value) : Write Unit := do
  let (k, x) ← Check.canonicalEntry i entry
  Write.within (.key i) (write env c k)
  Write.within (.value i) (write env d x)

theorem write_elements (items : List Value) :
    write env (.set c) (.array items) = (do
      count items.length
      let _ ← traverseFrom (writeElement env c) 0 items
      pure ()) := by
  simp only [write, writeWith, Check.array]
  rfl

theorem write_entries (items : List Value) :
    write env (.map c d) (.array items) = (do
      count items.length
      let _ ← traverseFrom (writeEntry env c d) 0 items
      pure ()) := by
  simp only [write, writeWith, Check.canonicalEntries]
  rfl

/-- What an entry adds: the bytes that its key was sorted by, and then what its
    value adds on its own. -/
def keyAndValue (env : Registries) (d : Codec) (i : Nat) (e : Bytes × Value × Value) :
    Except Error Unit × Bytes :=
  (Check.within (.value i) (write env d e.2.2 .empty).1,
    e.1 ++ (write env d e.2.2 .empty).2.bytes)

theorem adds_entry {i : Nat} {e : Bytes × Value × Value} (h : encode env c e.2.1 = .ok e.1) :
    Adds (writeEntry env c d i (Value.entry e.2)) (keyAndValue env d i e).1
      (keyAndValue env d i e).2 := by
  have hentry : Check.canonicalEntry i (Value.entry e.2) = .ok e.2 :=
    Check.canonicalEntry_eq_ok.2 (Value.asPair?_entry e.2)
  have hkey := (adds_of_encode h).within (.key i)
  have hvalue := (write_appending env d e.2.2).adds.within (.value i)
  rw [writeEntry, hentry]
  exact (adds_lift (.ok e.2)).bind (hkey.bind hvalue)

/-- Behind any bytes, the elements or keys add the bytes that they are sorted
    by, in this order, and none of them fails. -/
def WrittenInPlace (env : Registries) : Codec → Value → Prop
  | .set c, raw =>
      ∃ entries : List Order.Entry, raw = .array (entries.map Prod.snd) ∧
        Order.Ascending (entries.map Prod.fst) ∧ (∀ e ∈ entries, encode env c e.2 = .ok e.1) ∧
        let written := behindCount entries.length (.ok (), entries.flatMap Prod.fst)
        Adds (write env (.set c) raw) written.1 written.2
  | .map c d, raw =>
      ∃ entries : List (Bytes × Value × Value),
        raw = .array (entries.map fun e => Value.entry e.2) ∧
        Order.Ascending (entries.map Prod.fst) ∧ (∀ e ∈ entries, encode env c e.2.1 = .ok e.1) ∧
        let written := behindCount entries.length (inTurn (keyAndValue env d) 0 entries)
        Adds (write env (.map c d) raw) written.1 written.2
  | _, _ => True

theorem writtenInPlace_set {items : List Value} (h : Ordered env (.set c) (.array items)) :
    WrittenInPlace env (.set c) (.array items) := by
  obtain ⟨keys, hkeys, hascending⟩ := h
  obtain ⟨entries, rfl, rfl, hbytes⟩ := exists_zip hkeys.flip
  refine ⟨entries, rfl, hascending, hbytes, ?_⟩
  have hwrite := adds_traverseFrom (fun _ e => (.ok (), e.1)) (g := Prod.snd)
    (f := writeElement env c) (fun i e he => (adds_of_encode (hbytes e he)).within (.element i)) 0
  rw [inTurn_ok] at hwrite
  rw [write_elements, List.length_map]
  exact adds_count_bind hwrite

theorem writtenInPlace_map {items : List Value} (h : Ordered env (.map c d) (.array items)) :
    WrittenInPlace env (.map c d) (.array items) := by
  obtain ⟨keys, hkeys, hascending⟩ := h
  obtain ⟨zs, rfl, rfl, hzs⟩ := exists_zip hkeys.flip
  -- Each entry is taken apart into its key and its value.
  obtain ⟨entries, hentries, rfl⟩ := exists_forall₂_map
    (R := fun _ (e : Bytes × Value × Value) => encode env c e.2.1 = .ok e.1)
    (f := fun e => (e.1, Value.entry e.2))
    (List.forall₂_same.2 fun z hz => by
      obtain ⟨p, hp, hbytes⟩ := hzs z hz
      exact ⟨(z.1, p), hbytes, Prod.ext rfl hp⟩)
  have hbytes : ∀ e ∈ entries, encode env c e.2.1 = .ok e.1 := fun e he => by
    obtain ⟨_, _, hbytes⟩ := forall₂_mem_right hentries he
    exact hbytes
  simp only [List.map_map] at hascending ⊢
  refine ⟨entries, rfl, hascending, hbytes, ?_⟩
  have hwrite := adds_traverseFrom (keyAndValue env d) (g := fun e => Value.entry e.2)
    (f := writeEntry env c d) (fun i e he => adds_entry (hbytes e he)) 0
  refine cast ?_ (adds_count_bind (n := entries.length) hwrite)
  rw [write_entries, List.length_map]
  rfl

theorem writtenInPlace_of_normalize (h : normalize env c v = .ok raw) :
    WrittenInPlace env c raw := by
  cases c with
  | set c =>
    obtain ⟨_, entries, sorted, _, hentries, hsorted, rfl⟩ := normalize_set_eq_ok.1 h
    refine writtenInPlace_set (exists_keys_of_sortUnique (fun e he => ?_) hsorted)
    obtain ⟨_, _, _, hbytes⟩ := forall₂_mem_right hentries he
    exact hbytes
  | map c d =>
    obtain ⟨_, entries, sorted, _, hentries, hsorted, rfl⟩ := normalize_map_eq_ok.1 h
    refine writtenInPlace_map (exists_keys_of_sortUnique (fun e he => ?_) hsorted)
    obtain ⟨_, _, q, _, _, hbytes, hentry⟩ := forall₂_mem_right hentries he
    exact ⟨q, hentry, hbytes⟩
  | _ => trivial

theorem writtenInPlace_of_shaped (h : Shaped env (Ordered env) c raw) :
    WrittenInPlace env c raw := by
  cases h with
  | set hordered _ => exact writtenInPlace_set hordered
  | map hordered _ _ _ => exact writtenInPlace_map hordered
  | _ => trivial

/-! ## Appending only appends -/

/-- Writing ends at any writer as it does at the empty one, and adds the bytes
    that it adds there, also where it fails.  So what was sorted by its bytes is
    written in place with the same bytes: what normalization has put in order
    itself and, where no struct names a field twice, what it has put in order
    anywhere inside, which then stands among the bytes of the whole. -/
theorem writing_only_appends (env : Registries) :
    (∀ c raw w, (write env c raw w).1 = (write env c raw .empty).1 ∧
      (write env c raw w).2.bytes = w.bytes ++ (write env c raw .empty).2.bytes) ∧
    (∀ c v raw, normalize env c v = .ok raw → WrittenInPlace env c raw) ∧
    ∀ c v raw n d x, DistinctNames env c → normalize env c v = .ok raw → Part env c raw n d x →
      WrittenInPlace env d x ∧
        ∀ b, encode env c raw = .ok b → ∃ bs, encode env d x = .ok bs ∧ bs <:+: b := by
  refine ⟨fun c raw w => ?_, fun c v raw => writtenInPlace_of_normalize,
    fun c v raw n d x hnames hraw hx => ?_⟩
  · rw [write_appending env c raw w]
    exact ⟨rfl, Writer.bytes_append _ w⟩
  · have hshape := shaped_of_normalize hnames hraw
    exact ⟨writtenInPlace_of_shaped (hshape.part hx), fun b hb => exists_infix_of_part hshape hx hb⟩

/-- The second field is what the raw value keeps, and the first one refuses it. -/
def twiceFlagged : Codec := .struct [("flag", .bool), ("flag", u8)] false

def flagsInOrder : Value :=
  .array [.array [.int 7, .object [("flag", .int 1)]], .array [.int 9, .object [("flag", .int 0)]]]

/-- A value fails behind its key, which stays; elements of an inner set are in
    their places. -/
theorem writing_only_appends_refusedFlag :
    write .live (.map u8 twiceFlagged) flagsInOrder (Writer.empty.append [255]) =
      (.error { (Error.validation (.mismatch "canonical bool" .integer)) with
        path := [.value 0, .field "flag"] }, Writer.empty.append [255, 2, 7]) ∧
    WrittenInPlace .live (.map u8 twiceFlagged) flagsInOrder ∧
    WrittenInPlace .live (.set u16) (.array [.int 256, .int 1]) := by
  obtain ⟨hframe, hsorted, hinside⟩ := writing_only_appends .live
  have hflags : normalize .live (.map u8 twiceFlagged) (.array [
      .array [.int 9, .object [("flag", .int 0)]], .array [.int 7, .object [("flag", .int 1)]]]) =
        .ok flagsInOrder := by
    cbv
  have hnames : DistinctNames .live (.vector (.set u16)) := fun _ hd =>
    nodup_of_wellFormed (hd.passes Registries.wellFormed_live rfl)
  have hvector : normalize .live (.vector (.set u16)) (.array [.array [.int 1, .int 256]]) =
      .ok (.array [.array [.int 256, .int 1]]) := by
    cbv
  refine ⟨?_, hsorted _ _ _ hflags, ?_⟩
  · obtain ⟨hresult, hbytes⟩ := hframe (.map u8 twiceFlagged) flagsInOrder
      (Writer.empty.append [255])
    refine Prod.ext (hresult.trans (by cbv)) (Writer.ext (hbytes.trans (by cbv)))
  · exact (hinside _ _ _ _ _ _ hnames hvector (.step (.item (by simp)) .self)).1

end Codec

end ChainCodec
