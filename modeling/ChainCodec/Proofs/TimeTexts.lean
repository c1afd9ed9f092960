import ChainCodec.Codec.Normalize
import ChainCodec.Codec.Render
import ChainCodec.Proofs.CalendarOrder
import ChainCodec.Proofs.Checks
import ChainCodec.Proofs.Numerals

/-! # Texts of times

    A time is shown as a date-time whose fields have fixed widths.  Texts with
    fields of the same widths compare as the numbers in the fields do, the
    first field first, and this is the order of the calendar: a later time has
    a greater text.

    The text is read as the time, and so it is with a fraction of a second or
    the mark of the time zone behind it, or both: `time_texts`. -/

namespace ChainCodec

/-! ## Digits compare as their numbers -/

namespace Decimal

theorem digitValue_lt {d : Char} (h : d.isDigit = true) : digitValue d < 10 := by
  have := isDigit_iff.1 h
  have hzero : '0'.toNat = 48 := rfl
  rw [digitValue, hzero]
  omega

theorem digitValue_lt_digitValue {d e : Char} (hd : d.isDigit = true) (h : d < e) :
    digitValue d < digitValue e := by
  have hlow := isDigit_iff.1 hd
  have hlt : d.toNat < e.toNat := UInt32.lt_iff_toNat_lt.1 (Char.lt_def.1 h)
  have hzero : '0'.toNat = 48 := rfl
  rw [digitValue, digitValue, hzero]
  omega

/-- As many digits do not make up for a greater number in front of them. -/
theorem valueFrom_lt_of_lt {ds es : List Char} (hlength : ds.length = es.length)
    (hds : ∀ d ∈ ds, d.isDigit = true) {m n : Nat} (h : m < n) :
    valueFrom m ds < valueFrom n es := by
  induction ds generalizing es m n with
  | nil =>
    obtain rfl : es = [] := List.length_eq_zero_iff.1 hlength.symm
    exact h
  | cons d ds ih =>
    cases es with
    | nil => cases hlength
    | cons e es =>
      have hd := digitValue_lt (hds d (by simp))
      rw [valueFrom_cons, valueFrom_cons]
      exact ih (by simpa using hlength) (fun c hc => hds c (by simp [hc])) (by omega)

theorem valueFrom_lt_valueFrom {ds es : List Char} (hlength : ds.length = es.length)
    (hds : ∀ d ∈ ds, d.isDigit = true) (h : ds < es) (n : Nat) :
    valueFrom n ds < valueFrom n es := by
  induction ds generalizing es n with
  | nil =>
    obtain rfl : es = [] := List.length_eq_zero_iff.1 hlength.symm
    cases h
  | cons d ds ih =>
    cases es with
    | nil => cases hlength
    | cons e es =>
      have hrest : ∀ c ∈ ds, c.isDigit = true := fun c hc => hds c (by simp [hc])
      rw [valueFrom_cons, valueFrom_cons]
      -- The first difference decides, whatever comes behind it.
      rcases List.cons_lt_cons_iff.1 h with hlt | ⟨rfl, hlt⟩
      · have := digitValue_lt_digitValue (hds d (by simp)) hlt
        exact valueFrom_lt_of_lt (by simpa using hlength) hrest (by omega)
      · exact ih (by simpa using hlength) hrest hlt _

theorem lt_of_valueOf_lt {ds es : List Char} (hlength : ds.length = es.length)
    (hes : ∀ e ∈ es, e.isDigit = true) (h : valueOf ds < valueOf es) : ds < es := by
  apply List.not_le.1
  intro hle
  rcases List.le_iff_lt_or_eq.1 hle with hlt | rfl
  · have := valueFrom_lt_valueFrom hlength.symm hes hlt 0
    rw [valueFrom_zero, valueFrom_zero] at this
    omega
  · omega

end Decimal

namespace Iso

open Calendar

/-! ## Later times have greater texts -/

theorem append_lt_append {as bs : List Char} (hlength : as.length = bs.length) (h : as < bs)
    (cs ds : List Char) : as ++ cs < bs ++ ds := by
  induction as generalizing bs with
  | nil =>
    obtain rfl : bs = [] := List.length_eq_zero_iff.1 hlength.symm
    cases h
  | cons a as ih =>
    cases bs with
    | nil => cases hlength
    | cons b bs =>
      rw [List.cons_append, List.cons_append]
      rcases List.cons_lt_cons_iff.1 h with hlt | ⟨rfl, hlt⟩
      · exact List.cons_lt_cons_iff.2 (.inl hlt)
      · exact List.cons_lt_cons_iff.2 (.inr ⟨rfl, ih (by simpa using hlength) hlt⟩)

/-- Fields of one width decide, and where they are the same, what follows. -/
theorem padded_append_lt {width m n : Nat} {cs ds : List Char}
    (hlength : (padded width m).length = (padded width n).length)
    (h : m < n ∨ m = n ∧ cs < ds) : padded width m ++ cs < padded width n ++ ds := by
  rcases h with hlt | ⟨rfl, hlt⟩
  · refine append_lt_append hlength (Decimal.lt_of_valueOf_lt hlength ?_ ?_) cs ds
    · exact fun c hc => isDigit_of_mem_padded hc
    · rwa [valueOf_padded, valueOf_padded]
  · exact List.append_left_lt hlt

/-- So it is with two digits behind a separator. -/
theorem field_lt_field (separator : Char) {m n : Nat} {cs ds : List Char} (hm : m < 100)
    (hn : n < 100) (h : m < n ∨ m = n ∧ cs < ds) :
    separator :: (padded 2 m ++ cs) < separator :: (padded 2 n ++ ds) :=
  List.cons_lt_cons_self.2
    (padded_append_lt ((length_padded_two m hm).trans (length_padded_two n hn).symm) h)

theorem length_padded_four_eq {n : Nat} (h : n ≤ 9999) : (padded 4 n).length = 4 := by
  have hmost := length_padded_four h
  simp only [padded, List.length_append, List.length_replicate] at hmost ⊢
  omega

/-- The fields are written in the order in which they decide. -/
theorem renderChars_lt_renderChars {t u : DateTime} (ht : Plain t) (hu : Plain u)
    (h : t.Before u) : renderChars t < renderChars u := by
  obtain ⟨⟨hlow, hhigh⟩, hdate, hhour, hminute, hsecond⟩ := ht
  obtain ⟨⟨hlow', hhigh'⟩, hdate', hhour', hminute', hsecond'⟩ := hu
  obtain ⟨hmonth, hday⟩ := fields_of_exists hdate
  obtain ⟨hmonth', hday'⟩ := fields_of_exists hdate'
  have hfields := h.fields
  have hyears : (padded 4 t.date.year.natAbs).length = (padded 4 u.date.year.natAbs).length := by
    rw [length_padded_four_eq (by omega), length_padded_four_eq (by omega)]
  rw [renderChars_eq ⟨hlow, hhigh⟩, renderChars_eq ⟨hlow', hhigh'⟩]
  -- One step for each field: it decides, or it is the same and the next ones do.
  refine padded_append_lt hyears (hfields.imp (fun h => by omega) fun h => ⟨by rw [h.1], ?_⟩)
  refine field_lt_field '-' (by omega) (by omega) (h.2.imp_right fun h => ⟨h.1, ?_⟩)
  refine field_lt_field '-' (by omega) (by omega) (h.2.imp_right fun h => ⟨h.1, ?_⟩)
  refine field_lt_field 'T' (by omega) (by omega) (h.2.imp_right fun h => ⟨h.1, ?_⟩)
  refine field_lt_field ':' (by omega) (by omega) (h.2.imp_right fun h => ⟨h.1, ?_⟩)
  exact field_lt_field ':' (by omega) (by omega) (.inl h.2)

/-! ## Texts that are read -/

/-- What may stand between the seconds and the mark of the time zone. -/
inductive Fraction : List Char → Prop
  | absent : Fraction []
  | digits {ds : List Char} (hne : ds ≠ []) (hdigits : ∀ d ∈ ds, d.isDigit = true) :
      Fraction ('.' :: ds)

namespace Fraction

variable {rest : List Char}

theorem head_not_digit (h : Fraction rest) : ∀ c ∈ rest.head?, c.isDigit = false := by
  cases h with
  | absent => rintro c ⟨⟩
  | digits _ _ =>
    rintro c ⟨⟩
    rfl

theorem skipped (h : Fraction rest) : fraction rest = .ok [] := by
  cases h with
  | absent => rfl
  | @digits ds hne hdigits =>
    have hnumber : number none (ds ++ []) = .ok (Decimal.valueOf ds, []) :=
      number_append hne hdigits (by rintro c ⟨⟩) (by rintro n ⟨⟩)
    rw [List.append_nil] at hnumber
    rw [fraction, Except.bind_ok hnumber]
    rfl

/-- The seconds, or else the fraction, end in a digit. -/
theorem dropZone_append (h : Fraction rest) (t : DateTime) :
    dropZone (renderChars t ++ rest) = renderChars t ++ rest := by
  cases h with
  | absent => rw [List.append_nil, dropZone_renderChars]
  | @digits ds hne hdigits =>
    have hsplit : renderChars t ++ '.' :: ds =
        (renderChars t ++ '.' :: ds.dropLast) ++ [ds.getLast hne] := by
      rw [List.append_assoc, List.cons_append, List.dropLast_concat_getLast]
    rw [hsplit, dropZone_of_isDigit (hdigits _ (List.getLast_mem hne))]

end Fraction

theorem dropZone_zone (cs : List Char) : dropZone (cs ++ ['Z']) = cs := by
  rw [dropZone, List.getLast?_concat, if_pos rfl, List.dropLast_concat]

/-- The text of a number of seconds whose date-time is plain. -/
def text (seconds : Int) : String := String.ofList (renderChars (DateTime.ofSeconds seconds))

theorem mem_toList_text (n : Int) : 'T' ∈ (text n).toList := by
  rw [text, String.toList_ofList]
  simp [renderChars]

theorem render?_eq_text {n : Int} (h : Plain (DateTime.ofSeconds n)) : render? n = some (text n) :=
  if_pos (inRange_of_plain h.year.1 h.year.2)

theorem text_lt_text {m n : Int} (hm : Plain (DateTime.ofSeconds m))
    (hn : Plain (DateTime.ofSeconds n)) (h : m < n) : text m < text n := by
  rw [String.lt_iff, text, text, String.toList_ofList, String.toList_ofList]
  exact renderChars_lt_renderChars hm hn (ofSeconds_before hm hn h)

/-- The seconds are read from their text, whatever part of a second is told
    behind it, and with or without the mark of the time zone. -/
theorem parse_text_append {n : Int} {s : String} {rest : List Char}
    (h : Plain (DateTime.ofSeconds n)) (hrest : Fraction rest)
    (hs : s.toList = (text n).toList ++ rest ∨ s.toList = (text n).toList ++ rest ++ ['Z']) :
    parse s = .ok n := by
  rw [text, String.toList_ofList] at hs
  have hdrop : dropZone s.toList = renderChars (DateTime.ofSeconds n) ++ rest := by
    rcases hs with hs | hs
    · rw [hs, hrest.dropZone_append]
    · rw [hs, dropZone_zone]
  rw [parse, hdrop, parseChars_append h hrest.head_not_digit hrest.skipped, toSeconds_ofSeconds]

theorem plain_uint32 (n : UInt32) : Plain (DateTime.ofSeconds n.toNat) :=
  plain_ofSeconds (Int.natCast_nonneg _) (Int.ofNat_lt.2 n.toNat_lt_size)

end Iso

namespace Codec

variable {env : Registries}

theorem render_time (env : Registries) (n : UInt32) :
    render env .time (.int n.toNat) = .ok (.str (Iso.text n.toNat)) := by
  have hn : Check.canonicalInteger Check.timeName (.int n.toNat) = .ok (n.toNat : Int) := rfl
  simp only [render, renderWith]
  rw [Except.bind_ok hn, Iso.render?_eq_text (Iso.plain_uint32 n)]
  rfl

theorem normalize_time_text {n : UInt32} {s : String} {rest : List Char}
    (hrest : Iso.Fraction rest)
    (hs : s.toList = (Iso.text n.toNat).toList ++ rest ∨
      s.toList = (Iso.text n.toNat).toList ++ rest ++ ['Z']) :
    normalize env .time (.str s) = .ok (.int n.toNat) := by
  have hT : s.toList.contains 'T' = true := by
    have hmem := Iso.mem_toList_text n.toNat
    rw [List.contains_iff_mem]
    rcases hs with hs | hs
    · exact hs ▸ List.mem_append_left _ hmem
    · exact hs ▸ List.mem_append_left _ (List.mem_append_left _ hmem)
  have hseconds : Check.seconds (.str s) = .ok (n.toNat : Int) :=
    Check.seconds_of_parse hT (Iso.parse_text_append (Iso.plain_uint32 n) hrest hs)
  simp only [normalize, normalizeWith, Value.resolve]
  rw [Except.bind_ok hseconds]
  rfl

/-- Every time of the wire has a text.  The text is read as the time, with and
    without a fraction of any length and a final `Z`, and later times have
    greater texts. -/
theorem time_texts (env : Registries) :
    ∃ text : UInt32 → String,
      (∀ n, render env .time (.int n.toNat) = .ok (.str (text n))) ∧
      (∀ n, normalize env .time (.str (text n)) = .ok (.int n.toNat) ∧
        normalize env .time (.str (text n ++ "Z")) = .ok (.int n.toNat)) ∧
      (∀ n, ∀ f : String, f ≠ "" → (∀ d ∈ f.toList, d.isDigit = true) →
        normalize env .time (.str (text n ++ "." ++ f)) = .ok (.int n.toNat) ∧
        normalize env .time (.str (text n ++ "." ++ f ++ "Z")) = .ok (.int n.toNat)) ∧
      ∀ m n, m < n → text m < text n := by
  refine ⟨fun n => Iso.text n.toNat, render_time env, fun n => ?_, fun n f hne hdigits => ?_,
    fun m n hlt => ?_⟩
  · exact ⟨normalize_time_text .absent (.inl (by simp)),
      normalize_time_text .absent (.inr (by simp))⟩
  · have hfraction : Iso.Fraction ('.' :: f.toList) := .digits (by simpa using hne) hdigits
    exact ⟨normalize_time_text hfraction (.inl (by simp)),
      normalize_time_text hfraction (.inr (by simp))⟩
  · exact Iso.text_lt_text (Iso.plain_uint32 m) (Iso.plain_uint32 n)
      (Int.ofNat_lt.2 (UInt32.lt_iff_toNat_lt.1 hlt))

/-- The last second of the wire, with a part of it that is longer than any
    clock tells, and the first second. -/
theorem time_texts_last_second :
    normalize (fun _ => .empty) .time (.str "2106-02-07T06:28:15.9999999999999Z") =
      .ok (.int 4294967295) ∧
    "1970-01-01T00:00:00" < "2106-02-07T06:28:15" := by
  obtain ⟨text, hrender, -, hfraction, horder⟩ := time_texts (fun _ => .empty)
  have htext {n : UInt32} {s : String}
      (h : render (fun _ => .empty) .time (.int n.toNat) = .ok (.str s)) : text n = s :=
    Json.str.inj (Except.ok.inj ((hrender n).symm.trans h))
  have hfirst : text 0 = "1970-01-01T00:00:00" := htext rfl
  have hlast : text 4294967295 = "2106-02-07T06:28:15" := htext rfl
  have hdigits : "9999999999999".toList.all Char.isDigit = true := rfl
  have hread := (hfraction 4294967295 "9999999999999" (by decide)
    (List.all_eq_true.1 hdigits)).2
  have hlt := horder 0 4294967295 (by decide)
  rw [hlast] at hread
  rw [hfirst, hlast] at hlt
  exact ⟨hread, hlt⟩

end Codec

end ChainCodec
