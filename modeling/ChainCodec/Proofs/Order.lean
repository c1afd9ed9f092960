import ChainCodec.Codec.Order
import Mathlib.Data.List.Nodup

/-! # Canonical order

    Sorting the entries of a set or a map leaves a list of keys that ascends
    strictly, and a list of keys that ascends strictly is left as it is.  These
    two facts are all that the codecs need to know about `Order.sortUnique`.

    It fails exactly if keys are repeated, and with the least one of these:
    `sortUnique_eq_error_iff`. -/

namespace ChainCodec.Order

/-- Byte strings in strictly ascending order, so that none is repeated. -/
def Ascending (keys : List Bytes) : Prop := keys.Pairwise (· < ·)

theorem le_eq_true {a b : Entry} : le a b = true ↔ a.1 ≤ b.1 := by
  simp [le]

theorem lt_of_le_of_ne {a b : Bytes} (h : a ≤ b) (hne : a ≠ b) : a < b := by
  apply List.not_le.1
  intro h'
  exact hne (List.le_antisymm h h')

theorem sort_perm (entries : List Entry) : (sort entries).Perm entries :=
  List.mergeSort_perm entries le

theorem pairwise_sort (entries : List Entry) :
    (sort entries).Pairwise fun a b => a.1 ≤ b.1 := by
  have htrans (a b c : Entry) (hab : le a b = true) (hbc : le b c = true) : le a c = true :=
    le_eq_true.2 (List.le_trans (le_eq_true.1 hab) (le_eq_true.1 hbc))
  have htotal (a b : Entry) : (le a b || le b a) = true := by
    rw [Bool.or_eq_true, le_eq_true, le_eq_true]
    exact List.le_total a.1 b.1
  exact (List.pairwise_mergeSort htrans htotal entries).imp fun hab => le_eq_true.1 hab

/-- Without equal neighbours a sorted list ascends strictly. -/
theorem ascending_of_repeated?_eq_none {entries : List Entry}
    (hsorted : entries.Pairwise fun a b => a.1 ≤ b.1) (h : repeated? entries = none) :
    Ascending (entries.map Prod.fst) := by
  induction entries with
  | nil => exact List.Pairwise.nil
  | cons a entries ih =>
    rw [List.pairwise_cons] at hsorted
    cases entries with
    | nil => simp [Ascending]
    | cons b rest =>
      -- The second key lies strictly between the first one and all others.
      have hab : a.1 ≠ b.1 := by
        -- Equal neighbours would be reported.
        intro e
        simp [repeated?, e] at h
      have hrest : repeated? (b :: rest) = none := by simpa [repeated?, hab] using h
      have hb : a.1 < b.1 := lt_of_le_of_ne (hsorted.1 b (by simp)) hab
      have htail := ih hsorted.2 hrest
      refine List.pairwise_cons.2 ⟨?_, htail⟩
      intro key hkey
      rcases List.mem_cons.1 hkey with rfl | hkey
      · exact hb
      · exact List.lt_trans hb ((List.pairwise_cons.1 htail).1 key hkey)

/-! ## Repeated keys -/

theorem Ascending.nodup {keys : List Bytes} (h : Ascending keys) : keys.Nodup := by
  refine List.Pairwise.imp (fun {a b} hab (e : a = b) => ?_) h
  rw [e] at hab
  exact List.lt_irrefl b hab

/-- The least of the byte strings that stand in a list more than once. -/
def LeastRepeated (bs : Bytes) (keys : List Bytes) : Prop :=
  1 < keys.count bs ∧ ∀ other, 1 < keys.count other → bs ≤ other

theorem LeastRepeated.perm {bs : Bytes} {keys keys' : List Bytes} (h : LeastRepeated bs keys)
    (hperm : keys.Perm keys') : LeastRepeated bs keys' := by
  refine ⟨hperm.count_eq bs ▸ h.1, fun other hother => h.2 other ?_⟩
  rwa [hperm.count_eq other]

theorem LeastRepeated.not_nodup {bs : Bytes} {keys : List Bytes} (h : LeastRepeated bs keys) :
    ¬ keys.Nodup := by
  intro hnodup
  have := List.nodup_iff_count_le_one.1 hnodup bs
  have := h.1
  omega

theorem LeastRepeated.unique {as bs : Bytes} {keys : List Bytes} (has : LeastRepeated as keys)
    (hbs : LeastRepeated bs keys) : as = bs :=
  List.le_antisymm (has.2 bs hbs.1) (hbs.2 as has.1)

/-- In a sorted list the first equal neighbours have the least repeated key. -/
theorem leastRepeated_of_repeated? {entries : List Entry} {bs : Bytes}
    (hsorted : entries.Pairwise fun a b => a.1 ≤ b.1) (h : repeated? entries = some bs) :
    LeastRepeated bs (entries.map Prod.fst) := by
  induction entries with
  | nil => cases h
  | cons a entries ih =>
    rw [List.pairwise_cons] at hsorted
    cases entries with
    | nil => cases h
    | cons b rest =>
      have hge (key : Bytes) (hkey : key ∈ (b :: rest).map Prod.fst) : a.1 ≤ key := by
        obtain ⟨e, he, rfl⟩ := List.mem_map.1 hkey
        exact hsorted.1 e he
      rw [List.map_cons]
      by_cases hab : a.1 = b.1
      · -- The first two are equal, and nothing is less than they are.
        obtain rfl : a.1 = bs := by simpa [repeated?, hab] using h
        refine ⟨by simp [hab], fun other hother => ?_⟩
        have hmem := List.count_pos_iff.1 (Nat.lt_trans Nat.zero_lt_one hother)
        rcases List.mem_cons.1 hmem with rfl | hmem
        · exact List.le_refl _
        · exact hge other hmem
      · have hrest : repeated? (b :: rest) = some bs := by simpa [repeated?, hab] using h
        obtain ⟨hcount, hleast⟩ := ih hsorted.2 hrest
        refine ⟨Nat.lt_of_lt_of_le hcount List.count_le_count_cons, fun other hother => ?_⟩
        -- The first key is less than all others, and so is not repeated.
        have hfirst : other ≠ a.1 := by
          rintro rfl
          have hzero : ((b :: rest).map Prod.fst).count a.1 = 0 := by
            apply List.count_eq_zero_of_not_mem
            intro hmem
            have hba : b.1 ≤ a.1 := by
              rcases List.mem_cons.1 hmem with e | hmem
              · exact e ▸ List.le_refl _
              · obtain ⟨e, he, heq⟩ := List.mem_map.1 hmem
                exact heq ▸ (List.pairwise_cons.1 hsorted.2).1 e he
            exact hab (List.le_antisymm (hge b.1 (by simp)) hba)
          rw [List.count_cons_self, hzero] at hother
          omega
        rw [List.count_cons_of_ne hfirst.symm] at hother
        exact hleast other hother

/-- Sorting fails with the least key that is repeated. -/
theorem leastRepeated_of_sortUnique {entries : List Entry} {bs : Bytes}
    (h : sortUnique entries = .error bs) : LeastRepeated bs (entries.map Prod.fst) := by
  simp only [sortUnique] at h
  cases hr : repeated? (sort entries) with
  | none =>
    rw [hr] at h
    cases h
  | some bs' =>
    rw [hr] at h
    cases h
    have hleast := leastRepeated_of_repeated? (pairwise_sort entries) hr
    exact hleast.perm ((sort_perm entries).map Prod.fst)

/-! ## Distinct keys -/

/-- Without a repeated key it is the sorted entries whose values are given. -/
theorem sortUnique_of_nodup {entries : List Entry} (h : (entries.map Prod.fst).Nodup) :
    sortUnique entries = .ok ((sort entries).map Prod.snd) ∧
      Ascending ((sort entries).map Prod.fst) := by
  cases hr : repeated? (sort entries) with
  | none =>
    refine ⟨?_, ascending_of_repeated?_eq_none (pairwise_sort entries) hr⟩
    simp only [sortUnique, hr]
  | some bs =>
    have hleast := leastRepeated_of_repeated? (pairwise_sort entries) hr
    exact absurd h (hleast.perm ((sort_perm entries).map Prod.fst)).not_nodup

/-- There is one order at most in which the keys ascend strictly. -/
theorem eq_of_ascending {as bs : List Entry} (hperm : as.Perm bs)
    (has : Ascending (as.map Prod.fst)) (hbs : Ascending (bs.map Prod.fst)) : as = bs := by
  have has' : as.Pairwise fun a b => a.1 < b.1 := List.pairwise_map.1 has
  have hbs' : bs.Pairwise fun a b => a.1 < b.1 := List.pairwise_map.1 hbs
  refine hperm.eq_of_pairwise (fun a b _ _ hab hba => ?_) has' hbs'
  exact absurd (List.lt_trans hab hba) (List.lt_irrefl a.1)

/-- The entries have one order that ascends strictly, and sorting finds it. -/
theorem sortUnique_of_perm {entries sorted : List Entry} (hperm : sorted.Perm entries)
    (h : Ascending (sorted.map Prod.fst)) : sortUnique entries = .ok (sorted.map Prod.snd) := by
  have hnodup : (entries.map Prod.fst).Nodup := (hperm.map Prod.fst).nodup_iff.1 h.nodup
  obtain ⟨hok, hascending⟩ := sortUnique_of_nodup hnodup
  have hsort : (sort entries).Perm sorted := (sort_perm entries).trans hperm.symm
  rw [hok, eq_of_ascending hsort hascending h]

/-- What is sorted already stays as it is. -/
theorem sortUnique_of_ascending {entries : List Entry}
    (h : Ascending (entries.map Prod.fst)) :
    sortUnique entries = .ok (entries.map Prod.snd) :=
  sortUnique_of_perm (.refl entries) h

theorem sortUnique_zip {keys : List Bytes} {values : List Value}
    (hlength : keys.length = values.length) (h : Ascending keys) :
    sortUnique (keys.zip values) = .ok values := by
  have hfst : (keys.zip values).map Prod.fst = keys := List.map_fst_zip (by omega)
  have hsnd : (keys.zip values).map Prod.snd = values := List.map_snd_zip (by omega)
  rw [← hfst] at h
  rw [sortUnique_of_ascending h, hsnd]

/-! ## When sorting succeeds -/

/-- Sorting permutes the entries and puts their keys in strictly ascending order. -/
theorem exists_perm_of_sortUnique {entries : List Entry} {values : List Value}
    (h : sortUnique entries = .ok values) :
    ∃ sorted : List Entry, sorted.Perm entries ∧ Ascending (sorted.map Prod.fst) ∧
      values = sorted.map Prod.snd := by
  simp only [sortUnique] at h
  cases hr : repeated? (sort entries) with
  | some bs =>
    rw [hr] at h
    cases h
  | none =>
    rw [hr] at h
    cases h
    exact ⟨sort entries, sort_perm entries,
      ascending_of_repeated?_eq_none (pairwise_sort entries) hr, rfl⟩

/-- Sorting succeeds exactly if no key is repeated. -/
theorem sortUnique_eq_ok_iff {entries : List Entry} {values : List Value} :
    sortUnique entries = .ok values ↔
      (entries.map Prod.fst).Nodup ∧ ∃ sorted : List Entry, sorted.Perm entries ∧
        Ascending (sorted.map Prod.fst) ∧ values = sorted.map Prod.snd := by
  constructor
  · intro h
    obtain ⟨sorted, hperm, hascending, hvalues⟩ := exists_perm_of_sortUnique h
    exact ⟨(hperm.map Prod.fst).nodup_iff.1 hascending.nodup, sorted, hperm, hascending, hvalues⟩
  · rintro ⟨_, sorted, hperm, hascending, rfl⟩
    exact sortUnique_of_perm hperm hascending

/-- Sorting fails where a key is repeated, and names the least one. -/
theorem sortUnique_eq_error_iff {entries : List Entry} {bs : Bytes} :
    sortUnique entries = .error bs ↔ LeastRepeated bs (entries.map Prod.fst) := by
  constructor
  · exact leastRepeated_of_sortUnique
  · intro h
    cases hs : sortUnique entries with
    | ok values => exact absurd (sortUnique_eq_ok_iff.1 hs).1 h.not_nodup
    | error bs' => rw [(leastRepeated_of_sortUnique hs).unique h]

/-- The order in which entries are given does not matter. -/
theorem sortUnique_perm {entries other : List Entry} (h : other.Perm entries) :
    sortUnique other = sortUnique entries := by
  cases hs : sortUnique entries with
  | ok values =>
    obtain ⟨sorted, hsorted, hascending, rfl⟩ := exists_perm_of_sortUnique hs
    exact sortUnique_of_perm (hsorted.trans h.symm) hascending
  | error bs =>
    rw [sortUnique_eq_error_iff] at hs ⊢
    exact hs.perm (h.map Prod.fst).symm

theorem mem_of_sortUnique {entries : List Entry} {values : List Value}
    (h : sortUnique entries = .ok values) {v : Value} (hv : v ∈ values) :
    ∃ key, (key, v) ∈ entries := by
  obtain ⟨sorted, hperm, _, rfl⟩ := exists_perm_of_sortUnique h
  obtain ⟨e, he, rfl⟩ := List.mem_map.1 hv
  exact ⟨e.1, hperm.subset he⟩

theorem length_of_sortUnique {entries : List Entry} {values : List Value}
    (h : sortUnique entries = .ok values) : values.length = entries.length := by
  obtain ⟨sorted, hperm, _, rfl⟩ := exists_perm_of_sortUnique h
  rw [List.length_map, hperm.length_eq]

end ChainCodec.Order
