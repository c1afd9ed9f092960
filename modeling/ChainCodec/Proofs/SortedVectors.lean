import ChainCodec.Proofs.Advance
import ChainCodec.Proofs.Idempotence
import ChainCodec.Proofs.Reading.Turns
import ChainCodec.Proofs.Unfolding.Read

/-! # Sets and maps are sorted vectors

    On the wire a set is a vector of its elements, and a map is a vector of
    pairs.  Reading one goes through the same parts as reading the vector, and
    then sorts them by segments of the wire, those of the elements or those of
    the keys; writing one is writing the vector.

    The parts are listed once, apart from what the four codecs do with them:
    `ElementAt` and `EntryAt` say what is read at one place, and `Listed` what
    is read behind a count. -/

namespace ChainCodec.Codec

variable {env : Registries} {c d : Codec} {r s t : Reader} {v : Value}

/-! ## Parts -/

/-- An element is read from one reader to another, and takes the bytes between
    them. -/
def ElementAt (env : Registries) (c : Codec) (r : Reader) (e : Order.Entry) (s : Reader) : Prop :=
  read env c r = (.ok e.2, s) ∧ e.1 = r.slice r.cursor s.cursor

/-- A key and then a value are read, and the key takes the bytes up to the
    value. -/
def EntryAt (env : Registries) (c d : Codec) (r : Reader) (e : Order.Entry) (s : Reader) : Prop :=
  ∃ key m value, read env c r = (.ok key, m) ∧ read env d m = (.ok value, s) ∧
    e.1 = r.slice r.cursor m.cursor ∧ e.2 = Value.entry (key, value)

/-- Parts with their segments stand behind their number. -/
def Listed (step : Reader → Order.Entry → Reader → Prop) (r : Reader) (entries : List Order.Entry)
    (t : Reader) : Prop :=
  ∃ n s, Read.varint r = (.ok n, s) ∧ entries.length = n.toNat ∧ Read.InTurn step s entries t

theorem ElementAt.unique (r : Reader) (e e' : Order.Entry) (s s' : Reader)
    (h : ElementAt env c r e s) (h' : ElementAt env c r e' s') : e = e' ∧ s = s' := by
  obtain ⟨hread, hbytes⟩ := h
  obtain ⟨hread', hbytes'⟩ := h'
  have heq := hread.symm.trans hread'
  simp only [Prod.mk.injEq, Except.ok.injEq] at heq
  obtain ⟨hvalue, rfl⟩ := heq
  exact ⟨Prod.ext (hbytes.trans hbytes'.symm) hvalue, rfl⟩

theorem EntryAt.unique (r : Reader) (e e' : Order.Entry) (s s' : Reader)
    (h : EntryAt env c d r e s) (h' : EntryAt env c d r e' s') : e = e' ∧ s = s' := by
  obtain ⟨key, m, value, hkey, hvalue, hbytes, hentry⟩ := h
  obtain ⟨key', m', value', hkey', hvalue', hbytes', hentry'⟩ := h'
  obtain ⟨⟩ := hkey.symm.trans hkey'
  obtain ⟨⟩ := hvalue.symm.trans hvalue'
  exact ⟨Prod.ext (hbytes.trans hbytes'.symm) (hentry.trans hentry'.symm), rfl⟩

section Listed

variable {α β : Type} {step : Reader → Order.Entry → Reader → Prop} {entries : List Order.Entry}

/-- A reader has one list of parts behind it. -/
theorem Listed.unique (hstep : ∀ r e e' s s', step r e s → step r e' s' → e = e' ∧ s = s')
    {entries' : List Order.Entry} {t' : Reader} (h : Listed step r entries t)
    (h' : Listed step r entries' t') : entries = entries' ∧ t = t' := by
  obtain ⟨n, s, hcount, hlength, hparts⟩ := h
  obtain ⟨n', s', hcount', hlength', hparts'⟩ := h'
  obtain ⟨⟩ := hcount.symm.trans hcount'
  exact hparts.unique hstep hparts' (hlength.trans hlength'.symm)

variable {f : Nat → Read α} {g : Order.Entry → α} {k : List α → Read β}

/-- A loop over counted parts goes on with what it makes of them. -/
theorem counted_of_listed
    (hf : ∀ i r a s, f i r = (.ok a, s) ↔ ∃ e, step r e s ∧ a = g e) (h : Listed step r entries t) :
    (Read.varint >>= fun n => repeatFrom f 0 n.toNat >>= k) r = k (entries.map g) t := by
  obtain ⟨n, s, hcount, hlength, hparts⟩ := h
  have hloop : repeatFrom f 0 n.toNat s = (.ok (entries.map g), t) :=
    (Read.repeatFrom_eq_ok hf).2 ⟨entries, hparts, hlength, rfl⟩
  rw [Action.bind_ok hcount, Action.bind_ok hloop]

theorem exists_listed
    (hf : ∀ i r a s, f i r = (.ok a, s) ↔ ∃ e, step r e s ∧ a = g e) {b : β}
    (h : (Read.varint >>= fun n => repeatFrom f 0 n.toNat >>= k) r = (.ok b, s)) :
    ∃ entries t, Listed step r entries t := by
  obtain ⟨n, m, hcount, hrest⟩ := Action.bind_eq_ok.1 h
  obtain ⟨_, t, hloop, _⟩ := Action.bind_eq_ok.1 hrest
  obtain ⟨entries, hparts, hlength, _⟩ := (Read.repeatFrom_eq_ok hf).1 hloop
  exact ⟨entries, t, n, m, hcount, hlength, hparts⟩

end Listed

/-! ## What is read at one place -/

/-- The bytes since an earlier position are those between the two cursors. -/
theorem since_of_advances (h : r.Advances s) : s.since r.cursor = r.slice r.cursor s.cursor := by
  simp only [Reader.since, Reader.slice, h.data, Nat.min_eq_left h.cursor_le]

/-- An element of a vector. -/
theorem vectorItem_eq_ok (i : Nat) (r : Reader) (w : Value) (s : Reader) :
    Read.within (.element i) (read env c) r = (.ok w, s) ↔
      ∃ e, ElementAt env c r e s ∧ w = e.2 := by
  rw [Read.within_eq_ok]
  constructor
  · exact fun h => ⟨(r.slice r.cursor s.cursor, w), ⟨h, rfl⟩, rfl⟩
  · rintro ⟨e, ⟨h, _⟩, rfl⟩
    exact h

/-- An element of a vector of pairs. -/
theorem pairItem_eq_ok (i : Nat) (r : Reader) (w : Value) (s : Reader) :
    Read.within (.element i) (read env (.pair c d)) r = (.ok w, s) ↔
      ∃ e, EntryAt env c d r e s ∧ w = e.2 := by
  rw [Read.within_eq_ok, read_pair]
  simp only [Action.bind_eq_ok, Read.within_eq_ok, Read.pure_eq_ok]
  constructor
  · rintro ⟨key, m, hkey, value, _, hvalue, rfl, rfl⟩
    exact ⟨(r.slice r.cursor m.cursor, .entry (key, value)),
      ⟨key, m, value, hkey, hvalue, rfl, rfl⟩, rfl⟩
  · rintro ⟨e, ⟨key, m, value, hkey, hvalue, _, hentry⟩, rfl⟩
    exact ⟨key, m, hkey, value, s, hvalue, hentry.symm, rfl⟩

/-- An element of a set, with the bytes that were read. -/
theorem setItem_eq_ok (i : Nat) (r : Reader) (e : Order.Entry) (s : Reader) :
    (do
      let start ← Read.position
      let item ← Read.within (.element i) (read env c)
      let bs ← Read.since start
      pure (bs, item)) r = (.ok e, s) ↔ ∃ e', ElementAt env c r e' s ∧ e = e' := by
  simp only [Action.bind_eq_ok, Read.position_eq_ok, Read.since_eq_ok, Read.within_eq_ok,
    Read.pure_eq_ok]
  constructor
  · rintro ⟨_, _, ⟨rfl, rfl⟩, item, m, hitem, _, _, ⟨rfl, rfl⟩, rfl, rfl⟩
    have hadvances := (read_advancing env c).of_eq hitem
    exact ⟨_, ⟨hitem, since_of_advances hadvances⟩, rfl⟩
  · rintro ⟨⟨bs, item⟩, ⟨hitem, hbytes⟩, rfl⟩
    have hadvances := (read_advancing env c).of_eq hitem
    exact ⟨_, _, ⟨rfl, rfl⟩, item, s, hitem, bs, s,
      ⟨hbytes.trans (since_of_advances hadvances).symm, rfl⟩, rfl, rfl⟩

/-- An entry of a map, with the bytes of its key. -/
theorem mapItem_eq_ok (i : Nat) (r : Reader) (e : Order.Entry) (s : Reader) :
    (do
      let start ← Read.position
      let key ← Read.within (.key i) (read env c)
      let bs ← Read.since start
      let value ← Read.within (.value i) (read env d)
      pure (bs, Value.array [key, value])) r = (.ok e, s) ↔
        ∃ e', EntryAt env c d r e' s ∧ e = e' := by
  simp only [Action.bind_eq_ok, Read.position_eq_ok, Read.since_eq_ok, Read.within_eq_ok,
    Read.pure_eq_ok]
  constructor
  · rintro ⟨_, _, ⟨rfl, rfl⟩, key, m, hkey, _, _, ⟨rfl, rfl⟩, value, _, hvalue, rfl, rfl⟩
    have hadvances := (read_advancing env c).of_eq hkey
    exact ⟨_, ⟨key, m, value, hkey, hvalue, since_of_advances hadvances, rfl⟩, rfl⟩
  · rintro ⟨⟨bs, entry⟩, ⟨key, m, value, hkey, hvalue, hbytes, hentry⟩, rfl⟩
    have hadvances := (read_advancing env c).of_eq hkey
    exact ⟨_, _, ⟨rfl, rfl⟩, key, m, hkey, bs, m,
      ⟨hbytes.trans (since_of_advances hadvances).symm, rfl⟩, value, s, hvalue,
      Prod.ext rfl hentry.symm, rfl⟩

/-! ## Sorting what was read -/

/-- A codec reads listed parts as a vector, and another one sorts them by their
    segments. -/
structure SortsListed (step : Reader → Order.Entry → Reader → Prop) (duplicate : Bytes → Cause)
    (vector sorted : Read Value) (r : Reader) : Prop where
  /-- There is at most one list of parts behind the reader. -/
  unique : ∀ {entries entries' t t'}, Listed step r entries t → Listed step r entries' t' →
    entries = entries' ∧ t = t'
  vector_eq_ok : ∀ {v t}, vector r = (.ok v, t) ↔
    ∃ entries, Listed step r entries t ∧ v = .array (entries.map Prod.snd)
  sorted_eq_ok : ∀ {v t}, sorted r = (.ok v, t) ↔
    ∃ entries, Listed step r entries t ∧ (entries.map Prod.fst).Nodup ∧
      ∃ ascending : List Order.Entry, ascending.Perm entries ∧
        Order.Ascending (ascending.map Prod.fst) ∧ v = .array (ascending.map Prod.snd)
  repeated : ∀ {entries t}, Listed step r entries t → ¬ (entries.map Prod.fst).Nodup →
    ∃ bs, Order.LeastRepeated bs (entries.map Prod.fst) ∧
      sorted r = (.error (.error (.decode (duplicate bs))), t)

theorem ordered_eq_ok {duplicate : Bytes → Cause} {entries : List Order.Entry} :
    Read.ordered duplicate entries r = (.ok v, t) ↔
      r = t ∧ ∃ values, Order.sortUnique entries = .ok values ∧ v = .array values := by
  simp only [Read.ordered, Read.ofResult]
  rw [Action.bind_eq_ok]
  simp only [Action.ofExcept_apply, Prod.mk.injEq, Except.mapError_eq_ok, Read.pure_eq_ok]
  constructor
  · rintro ⟨values, _, ⟨hsorted, rfl⟩, rfl, rfl⟩
    exact ⟨rfl, values, hsorted, rfl⟩
  · rintro ⟨rfl, values, hsorted, rfl⟩
    exact ⟨values, r, ⟨hsorted, rfl⟩, rfl, rfl⟩

theorem ordered_of_repeated (duplicate : Bytes → Cause) {entries : List Order.Entry} {bs : Bytes}
    (h : Order.sortUnique entries = .error bs) :
    Read.ordered duplicate entries r = (.error (.error (.decode (duplicate bs))), r) := by
  simp only [Read.ordered, Read.ofResult, h]
  rfl

/-- Both loops run over the same parts, one collects their values and the other
    one sorts them. -/
theorem sortsListed {step : Reader → Order.Entry → Reader → Prop} {duplicate : Bytes → Cause}
    {item : Nat → Read Value} {entry : Nat → Read Order.Entry}
    (hstep : ∀ r e e' s s', step r e s → step r e' s' → e = e' ∧ s = s')
    (hitem : ∀ i r w s, item i r = (.ok w, s) ↔ ∃ e, step r e s ∧ w = e.2)
    (hentry : ∀ i r e s, entry i r = (.ok e, s) ↔ ∃ e', step r e' s ∧ e = e') (r : Reader) :
    SortsListed step duplicate
      (Read.varint >>= fun n => repeatFrom item 0 n.toNat >>= fun items => pure (.array items))
      (Read.varint >>= fun n => repeatFrom entry 0 n.toNat >>= Read.ordered duplicate) r where
  unique := Listed.unique hstep
  vector_eq_ok := by
    intro v t
    constructor
    · intro h
      obtain ⟨entries, s, hlisted⟩ := exists_listed hitem h
      rw [counted_of_listed hitem hlisted, Read.pure_eq_ok] at h
      obtain ⟨rfl, rfl⟩ := h
      exact ⟨entries, hlisted, rfl⟩
    · rintro ⟨entries, hlisted, rfl⟩
      rw [counted_of_listed hitem hlisted]
      rfl
  sorted_eq_ok := by
    intro v t
    have hsort {entries : List Order.Entry} {s : Reader} (hlisted : Listed step r entries s) :
        (Read.varint >>= fun n => repeatFrom entry 0 n.toNat >>= Read.ordered duplicate) r =
          Read.ordered duplicate entries s := by
      rw [counted_of_listed hentry hlisted, List.map_id']
    constructor
    · intro h
      obtain ⟨entries, s, hlisted⟩ := exists_listed hentry h
      rw [hsort hlisted, ordered_eq_ok] at h
      obtain ⟨rfl, values, hsorted, rfl⟩ := h
      obtain ⟨hnodup, ascending, hperm, hascending, rfl⟩ := Order.sortUnique_eq_ok_iff.1 hsorted
      exact ⟨entries, hlisted, hnodup, ascending, hperm, hascending, rfl⟩
    · rintro ⟨entries, hlisted, _, ascending, hperm, hascending, rfl⟩
      rw [hsort hlisted, ordered_eq_ok]
      exact ⟨rfl, _, Order.sortUnique_of_perm hperm hascending, rfl⟩
  repeated := by
    intro entries t hlisted hrepeated
    cases hsorted : Order.sortUnique entries with
    | ok values => exact absurd (Order.sortUnique_eq_ok_iff.1 hsorted).1 hrepeated
    | error bs =>
      refine ⟨bs, Order.leastRepeated_of_sortUnique hsorted, ?_⟩
      rw [counted_of_listed hentry hlisted, List.map_id']
      exact ordered_of_repeated duplicate hsorted

theorem read_sortsListed_set (env : Registries) (c : Codec) (r : Reader) :
    SortsListed (ElementAt env c) .duplicateElement (read env (.vector c))
      (read env (.set c)) r := by
  rw [read_vector, read_set]
  exact sortsListed ElementAt.unique vectorItem_eq_ok setItem_eq_ok r

theorem read_sortsListed_map (env : Registries) (c d : Codec) (r : Reader) :
    SortsListed (EntryAt env c d) .duplicateKey (read env (.vector (.pair c d)))
      (read env (.map c d)) r := by
  rw [read_vector, read_map]
  exact sortsListed EntryAt.unique pairItem_eq_ok mapItem_eq_ok r

/-! ## Writing -/

theorem write_set_array (items : List Value) (w : Writer) :
    write env (.set c) (.array items) w = write env (.vector c) (.array items) w := by
  simp only [write, writeWith, Check.array]

/-- An entry of a map has the bytes of a pair. -/
theorem encode_map_array_eq_ok {items : List Value} {b : Bytes} :
    encode env (.map c d) (.array items) = .ok b ↔
      encode env (.vector (.pair c d)) (.array items) = .ok b := by
  rw [encode_vector_eq_ok]
  simp only [encode, write, writeWith]
  rw [Write.run_lift_bind, Except.bind_ok (Check.canonicalEntries_eq_ok.2 rfl)]
  refine run_counted_eq_ok (fun i item => ?_) fun i item bs => ?_
  · exact (Write.appending_lift _).bind fun p =>
      ((write_appending env c p.1).within _).bind fun _ => (write_appending env d p.2).within _
  · rw [Write.run_lift_bind, Write.run_lift_bind]
    simp only [Except.bind_eq_ok, Check.canonicalEntry_eq_ok, Check.pair_eq_ok]
    exact exists_congr fun p => and_congr_right fun _ => run_pair_eq_ok.trans run_pair_eq_ok.symm

theorem write_eq_ok {w w' : Writer} :
    write env c v w = (.ok (), w') ↔ ∃ b, encode env c v = .ok b ∧ w' = w.append b := by
  rw [write_appending env c v w, Prod.mk.injEq]
  constructor
  · rintro ⟨hok, rfl⟩
    exact ⟨_, encode_eq_ok_iff.2 ⟨hok, rfl⟩, rfl⟩
  · rintro ⟨b, hb, rfl⟩
    obtain ⟨hok, rfl⟩ := encode_eq_ok_iff.1 hb
    exact ⟨hok, rfl⟩

/-! ## Collections -/

/-- A set is read exactly where a vector of its elements is read whose segments
    are distinct, up to the same place, and has the elements of the vector in
    the order of their segments; a map is read so where a vector of pairs is
    read, by the segments of the keys.  Repeated segments are refused by naming
    the least of them.  What is written for an array is the same. -/
theorem collections_are_sorted_vectors (env : Registries) (c d : Codec) :
    (∀ r, SortsListed (ElementAt env c) .duplicateElement (read env (.vector c))
      (read env (.set c)) r) ∧
    (∀ r, SortsListed (EntryAt env c d) .duplicateKey (read env (.vector (.pair c d)))
      (read env (.map c d)) r) ∧
    (∀ bs, (Error.decode (.duplicateElement bs)).message =
        "duplicate set element " ++ Hex.encode bs ∧
      (Error.decode (.duplicateKey bs)).message = "duplicate map key " ++ Hex.encode bs) ∧
    ∀ items w w',
      (write env (.set c) (.array items) w = (.ok (), w') ↔
        write env (.vector c) (.array items) w = (.ok (), w')) ∧
      (write env (.map c d) (.array items) w = (.ok (), w') ↔
        write env (.vector (.pair c d)) (.array items) w = (.ok (), w')) := by
  refine ⟨read_sortsListed_set env c, read_sortsListed_map env c d, ?_, ?_⟩
  · intro bs
    exact ⟨rfl, rfl⟩
  · intro items w w'
    refine ⟨by rw [write_set_array], ?_⟩
    rw [write_eq_ok, write_eq_ok]
    exact exists_congr fun b => and_congr_left fun _ => encode_map_array_eq_ok

end ChainCodec.Codec
