import ChainCodec.Proofs.Grammar
import ChainCodec.Proofs.Reading.Scalars

/-! # Only spellings are read

    What `Codec.read` takes from a buffer is a spelling of the value that it
    gives: `read_sound`.

    The proof follows `readWith`.  At an operation codec it relies on what is
    known about the operation passed in, and for `readOperation` that is an
    induction on the bound. -/

namespace ChainCodec.Codec

open Read

variable {env : Registries}

/-! ## Collections, options and unions -/

section Collections

variable {c d : Codec} {k : Nat}

/-- Elements are spelled in the order in which they are found, and then put in the
    order of the bytes that they took. -/
theorem sound_set {element : Nat → Read Value}
    (helement : ∀ i, Sound k (Spells env k c) (element i)) (duplicate : Bytes → Cause) :
    Sound k (Spells env k (.set c)) (do
      let n ← Read.varint
      let entries ← repeatFrom (fun i => do
        let start ← position
        let item ← element i
        let bs ← since start
        pure (bs, item)) 0 n.toNat
      ordered duplicate entries) := by
  have hentry (i : Nat) : Sound k
      (fun bs (e : Order.Entry) => bs = e.1 ∧ Spells env k c e.1 e.2) (do
        let start ← position
        let item ← element i
        let bs ← since start
        pure (bs, item)) := by
    refine ((helement i).measured fun bs item => sound_pure (bs, item)).imp ?_
    intro _ _ h
    rcases h with ⟨item, bs, _, hitem, ⟨rfl, rfl⟩, rfl⟩
    exact ⟨List.append_nil bs, hitem⟩
  refine (sound_counted hentry fun entries => sound_ordered _ entries).imp ?_
  intro _ _ h
  rcases h with ⟨count, parts, _, hcount, hparts, ⟨rfl, items, hsorted, rfl⟩, rfl⟩
  -- Each part was measured as the bytes of its entry.
  have hbytes : parts.flatMap Prod.fst = (parts.map Prod.snd).flatMap Prod.fst := by
    rw [List.flatMap_map]
    exact List.flatMap_congr fun e he => (hparts e he).1
  rw [List.append_nil, hbytes]
  refine .set ?_ ?_ hsorted
  · rw [List.length_map]
    exact hcount
  · intro e he
    obtain ⟨p, hp, rfl⟩ := List.mem_map.1 he
    exact (hparts p hp).2

/-- Each key is spelled right before its value, and the entries are put in the
    order of the bytes that the keys took. -/
theorem sound_map {key value : Nat → Read Value} (hkey : ∀ i, Sound k (Spells env k c) (key i))
    (hvalue : ∀ i, Sound k (Spells env k d) (value i)) (duplicate : Bytes → Cause) :
    Sound k (Spells env k (.map c d)) (do
      let n ← Read.varint
      let entries ← repeatFrom (fun i => do
        let start ← position
        let a ← key i
        let bs ← since start
        let b ← value i
        pure (bs, Value.array [a, b])) 0 n.toNat
      ordered duplicate entries) := by
  have hentry (i : Nat) : Sound k
      (fun bs (e : Order.Entry) => ∃ q : Order.Entry × Order.Entry,
        bs = q.1.1 ++ q.2.1 ∧ e = (q.1.1, Value.entry (q.1.2, q.2.2)) ∧
          Spells env k c q.1.1 q.1.2 ∧ Spells env k d q.2.1 q.2.2) (do
        let start ← position
        let a ← key i
        let bs ← since start
        let b ← value i
        pure (bs, Value.array [a, b])) := by
    refine ((hkey i).measured fun bs a =>
      (hvalue i).bind fun b => sound_pure (bs, Value.array [a, b])).imp ?_
    intro _ _ h
    rcases h with ⟨a, as, _, ha, ⟨b, bs, _, hb, ⟨rfl, rfl⟩, rfl⟩, rfl⟩
    rw [List.append_nil]
    exact ⟨((as, a), (bs, b)), rfl, rfl, ha, hb⟩
  refine (sound_counted hentry fun entries => sound_ordered _ entries).imp ?_
  intro _ _ h
  rcases h with ⟨count, parts, _, hcount, hparts, ⟨rfl, items, hsorted, rfl⟩, rfl⟩
  -- So the parts are given by spellings of keys and values.
  obtain ⟨qs, hqs⟩ := exists_forall₂ hparts
  obtain rfl : parts = qs.map fun q => (q.1.1 ++ q.2.1, q.1.1, Value.entry (q.1.2, q.2.2)) := by
    rw [← List.forall₂_eq_eq_eq, List.forall₂_map_right_iff]
    exact hqs.imp fun _ _ hq => Prod.ext hq.1 hq.2.1
  have hspells : ∀ q ∈ qs, Spells env k c q.1.1 q.1.2 ∧ Spells env k d q.2.1 q.2.2 := by
    intro q hq
    obtain ⟨_, _, _, _, h⟩ := forall₂_mem_right hqs hq
    exact h
  rw [List.append_nil, List.flatMap_map]
  rw [List.map_map] at hsorted
  rw [List.length_map] at hcount
  refine .map hcount ?_ ?_ hsorted
  · exact fun q hq => (hspells q hq).1
  · exact fun q hq => (hspells q hq).2

/-- One byte tells whether there is anything behind it. -/
theorem sound_optional {x : Read Value} (hx : Sound k (Spells env k c) x) :
    Sound k (Spells env k (.optional c)) (do
      let b ← Read.byte
      if b = 0 then pure .null
      else if b = 1 then x
      else fail (.decode (.optionalFlag b))) := by
  have hrest : ∀ b : UInt8, Sound k (fun bs v => Spells env k (.optional c) (b :: bs) v)
      (if b = 0 then pure .null
      else if b = 1 then x
      else fail (.decode (.optionalFlag b))) := by
    intro b
    split
    · rename_i hb
      refine (sound_pure _).imp ?_
      intro _ _ h
      rcases h with ⟨rfl, rfl⟩
      rw [hb]
      exact .absent
    · split
      · rename_i hb
        rw [hb]
        exact hx.imp fun bs v h => .present h
      · exact sound_fail _
  refine (sound_byte.bind hrest).imp ?_
  intro _ v h
  rcases h with ⟨b, _, bs, rfl, h, rfl⟩
  exact h

/-- The payload decides how the whole is read, whatever the tag was. -/
theorem sound_variant {label : String} {cases : CaseTable} {payload : UInt32 → Read Value}
    (hpayload : ∀ tag, Sound k (fun bs v => ∃ j c, k = j + 1 ∧ cases.lookup tag = some c ∧
      Spells env j c bs v) (payload tag)) :
    Sound k (Spells env k (.variant label cases)) (do
      let tag ← Read.varint
      let v ← payload tag
      pure (Value.array [.int tag.toNat, v])) := by
  have htagged (tag : UInt32) : Sound k (fun bs v => ∃ j c payload, k = j + 1 ∧
      cases.lookup tag = some c ∧ Spells env j c bs payload ∧
        v = Value.array [.int tag.toNat, payload]) (do
      let v ← payload tag
      pure (Value.array [.int tag.toNat, v])) := by
    apply (hpayload tag).map
    intro bs v h
    rcases h with ⟨j, c, hj, hcase, h⟩
    exact ⟨j, c, v, hj, hcase, h, rfl⟩
  refine (sound_varint.bind htagged).imp ?_
  intro _ _ h
  rcases h with ⟨tag, as, bs, htag, ⟨j, c, payload, rfl, hcase, h, rfl⟩, rfl⟩
  exact .variant htag hcase h

end Collections

/-! ## Codecs -/

/-- What is assumed of the operations inside a codec. -/
def ReadsSpellings (env : Registries) (op : ReadOperation) : Prop :=
  ∀ link k, Sound k (Spells env k (.operation link)) (op link)

mutual

theorem readWith_sound {op : ReadOperation} (hop : ReadsSpellings env op) (c : Codec) (k : Nat) :
    Sound k (Spells env k c) (readWith op c) := by
  match c with
  | .int t =>
    simp only [readWith]
    apply (sound_fixed _).map
    intro bs _ h
    rcases h with ⟨hlength, rfl⟩
    exact .int hlength
  | .varint =>
    simp only [readWith]
    apply sound_varint.map
    intro bs n hn
    exact .varint hn
  | .bool =>
    simp only [readWith]
    apply sound_bool.map
    intro bs b h
    subst h
    exact .bool
  | .bytes (some n) =>
    simp only [readWith, sized]
    apply (sound_take n).map
    intro bs _ h
    rcases h with ⟨hlength, rfl⟩
    exact .fixedBytes hlength
  | .bytes none =>
    simp only [readWith, sized]
    apply sound_blob.map
    intro _ bs h
    rcases h with ⟨count, hcount, rfl⟩
    exact .blob hcount
  | .string =>
    simp only [readWith]
    apply sound_string.map
    intro _ s h
    rcases h with ⟨count, hcount, rfl⟩
    exact .string hcount
  | .time =>
    simp only [readWith]
    apply (sound_fixed 4).map
    intro bs _ h
    rcases h with ⟨hlength, rfl⟩
    exact .time hlength
  | .void =>
    simp only [readWith]
    refine (sound_pure _).imp ?_
    intro _ _ h
    rcases h with ⟨rfl, rfl⟩
    exact .void
  | .vector c =>
    simp only [readWith]
    have hitem (i : Nat) := (readWith_sound hop c k).within (.element i)
    refine (sound_counted hitem fun items => sound_pure (Value.array items)).imp ?_
    intro _ _ h
    rcases h with ⟨count, parts, _, hcount, hparts, ⟨rfl, rfl⟩, rfl⟩
    rw [List.append_nil]
    exact .vector hcount hparts
  | .set c =>
    simp only [readWith]
    exact sound_set (fun i => (readWith_sound hop c k).within (.element i)) _
  | .map c d =>
    simp only [readWith]
    exact sound_map (fun i => (readWith_sound hop c k).within (.key i))
      (fun i => (readWith_sound hop d k).within (.value i)) _
  | .optional c =>
    simp only [readWith]
    exact sound_optional (readWith_sound hop c k)
  | .pair c d =>
    simp only [readWith]
    refine (((readWith_sound hop c k).within _).bind fun a =>
      ((readWith_sound hop d k).within _).bind fun b => sound_pure (Value.array [a, b])).imp ?_
    intro _ _ h
    rcases h with ⟨a, as, _, ha, ⟨b, bs, _, hb, ⟨rfl, rfl⟩, rfl⟩, rfl⟩
    rw [List.append_nil]
    exact .pair ha hb
  | .variant label cases =>
    simp only [readWith]
    exact sound_variant fun tag => readCase_sound hop label tag cases k
  | .struct fields _ =>
    simp only [readWith]
    apply (readFields_sound hop fields k).map
    intro _ _ h
    rcases h with ⟨parts, rfl, hparts, rfl, rfl⟩
    exact .struct hparts
  | .objectId space type more =>
    simp only [readWith]
    apply (sound_objectId space type more).map
    intro bs _ h
    rcases h with ⟨rfl, n, hn, rfl⟩
    exact .objectId hn
  | .anyObjectId =>
    simp only [readWith]
    apply (sound_fixed 8).map
    intro bs _ h
    rcases h with ⟨hlength, rfl⟩
    exact .anyObjectId hlength
  | .publicKey scheme start =>
    simp only [readWith]
    apply (sound_publicKey scheme start).map
    intro point _ h
    rcases h with ⟨hcheck, rfl⟩
    exact .publicKey hcheck
  | .address scheme start =>
    simp only [readWith]
    apply (sound_address scheme start).map
    intro bs _ h
    rcases h with ⟨a, ha, rfl⟩
    exact .address ha
  | .operation link => exact hop link k

/-- The payload is read with room for one union less. -/
theorem readCase_sound {op : ReadOperation} (hop : ReadsSpellings env op) (label : String)
    (tag : UInt32) (cases : List (UInt32 × Codec)) (k : Nat) :
    Sound k (fun bs v => ∃ j c, k = j + 1 ∧ cases.lookup tag = some c ∧ Spells env j c bs v)
      (readCase op label tag cases) := by
  match cases with
  | [] =>
    simp only [readCase]
    exact sound_fail _
  | (t, c) :: rest =>
    simp only [readCase]
    split
    · rename_i ht
      refine Sound.nested fun j hj => ((readWith_sound hop c j).within _).imp fun bs v h => ?_
      exact ⟨j, c, hj, by rw [ht, List.lookup_cons_self], h⟩
    · rename_i ht
      rw [lookup_cons_ne ht]
      exact readCase_sound hop label tag rest k

theorem readFields_sound {op : ReadOperation} (hop : ReadsSpellings env op)
    (fields : List (String × Codec)) (k : Nat) :
    Sound k (fun bs values => ∃ parts : List ((String × Codec) × Order.Entry),
      parts.map Prod.fst = fields ∧ (∀ p ∈ parts, Spells env k p.1.2 p.2.1 p.2.2) ∧
        bs = (parts.flatMap fun p => p.2.1) ∧ values = parts.map fun p => (p.1.1, p.2.2))
      (readFields op fields) := by
  match fields with
  | [] =>
    simp only [readFields]
    refine (sound_pure _).imp ?_
    intro _ _ h
    rcases h with ⟨rfl, rfl⟩
    exact ⟨[], rfl, by simp, rfl, rfl⟩
  | (name, c) :: rest =>
    simp only [readFields]
    refine (((readWith_sound hop c k).within _).bind fun v =>
      (readFields_sound hop rest k).bind fun vs => sound_pure ((name, v) :: vs)).imp ?_
    intro _ _ h
    rcases h with ⟨v, bs, _, hv, ⟨_, _, _, ⟨parts, rfl, hparts, rfl, rfl⟩, ⟨rfl, rfl⟩, rfl⟩, rfl⟩
    refine ⟨((name, c), (bs, v)) :: parts, rfl, ?_, by simp, rfl⟩
    intro p hp
    rcases List.mem_cons.1 hp with rfl | hp
    · exact hv
    · exact hparts p hp

end

theorem readOperation_sound (env : Registries) (fuel : Nat) :
    ReadsSpellings env (readOperation env fuel) := by
  induction fuel with
  | zero => exact fun link k => sound_fail _
  | succ fuel ih =>
    intro link k
    refine ((sound_ofResult _).bind fun union => readWith_sound ih union k).imp ?_
    intro _ v h
    rcases h with ⟨union, _, bs, ⟨rfl, hunion⟩, h, rfl⟩
    obtain ⟨table, htable, rfl⟩ := Registries.unionOf_eq_ok.1 hunion
    cases h with
    | variant htag hcase h => exact .operation htable htag hcase h

/-- What is read spells the value that it is read as. -/
theorem read_sound (env : Registries) (c : Codec) (k : Nat) :
    Sound k (Spells env k c) (read env c) := by
  refine readWith_sound (fun link k r v r' hroom hr h => ?_) c k
  exact readOperation_sound env (r.room + 1) link k r v r' hroom hr h

end ChainCodec.Codec
