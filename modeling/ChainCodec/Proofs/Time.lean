import ChainCodec.Proofs.Text
import ChainCodec.Time.Iso

/-! # Times are read back

    Counting days and naming dates are inverse to each other, and a written
    date-time is read as the second it was written for.

    The calendar repeats in eras of four centuries; a century has 25 cycles
    of four years, and a year of the cycle has 365 days, one more if it is
    the last of a cycle that ends in a leap day.  `EraDay` says where in this
    pattern a day lies, and the arithmetic below only has to be done once, on
    such a decomposition. -/

namespace ChainCodec.Calendar

/-! ## Days of an era -/

/-- Day `n` of an era is day `day` of year `year` of cycle `cycle` of century
    `century`, all counted from zero. -/
structure EraDay (n century cycle year day : Nat) : Prop where
  sum : n = 36524 * century + 1461 * cycle + 365 * year + day
  century_le : century ≤ 3
  cycle_le : cycle ≤ 24
  year_le : year ≤ 3
  day_le : day ≤ 365
  leap : day = 365 → year = 3 ∧ (cycle = 24 → century = 3)

theorem exists_eraDay {n : Nat} (h : n < 146097) :
    ∃ century cycle year day, EraDay n century cycle year day := by
  -- The last day of an era, of a cycle or of a century would start a next one.
  let century := min (n / 36524) 3
  let cycle := (n - 36524 * century) / 1461
  let year := min ((n - 36524 * century - 1461 * cycle) / 365) 3
  refine ⟨century, cycle, year, n - 36524 * century - 1461 * cycle - 365 * year, ?_⟩
  have hcentury : 36524 * century ≤ n := by omega
  have hrest : n - 36524 * century ≤ 36524 := by omega
  have hlast : n - 36524 * century = 36524 → century = 3 := by omega
  have hcycle : 1461 * cycle ≤ n - 36524 * century := by omega
  have hcycle' : n - 36524 * century - 1461 * cycle ≤ 1460 := by omega
  have hyear : 365 * year ≤ n - 36524 * century - 1461 * cycle := by omega
  constructor <;> omega

namespace EraDay

variable {n century cycle year day : Nat}

theorem yearOfEra_eq (h : EraDay n century cycle year day) :
    yearOfEra n = 100 * century + 4 * cycle + year := by
  obtain ⟨hn, hcentury, hcycle, hyear, hday, hleap⟩ := h
  -- The divisors are one day short, so each quotient is one too high on the
  -- last day of its span, which is what the correction of the year undoes.
  have hquot : n / 1460 = 25 * century + cycle +
      (if 24 * century + cycle + 365 * year + day < 1460 then 0 else 1) := by
    split <;> omega
  have hcent : n / 36524 = century + (if n = 146096 then 1 else 0) := by
    split <;> omega
  have hera : n / 146096 = if n = 146096 then 1 else 0 := by
    split <;> omega
  unfold yearOfEra
  rw [hquot, hcent, hera]
  split <;> split <;> omega

theorem daysBeforeYear_eq (h : EraDay n century cycle year day) :
    daysBeforeYear (yearOfEra n) = n - day := by
  obtain ⟨hn, hcentury, hcycle, hyear, hday, hleap⟩ := id h
  -- Leap days before the year: one for each cycle, none for a century.
  have hfour : (100 * century + 4 * cycle + year) / 4 = 25 * century + cycle := by omega
  have hhundred : (100 * century + 4 * cycle + year) / 100 = century := by omega
  rw [h.yearOfEra_eq, daysBeforeYear, hfour, hhundred]
  omega

theorem dayOfYear_eq (h : EraDay n century cycle year day) :
    n - daysBeforeYear (yearOfEra n) = day := by
  have := h.sum
  rw [h.daysBeforeYear_eq]
  omega

end EraDay

/-! ## Days of a year -/

/-- The month, counted from March, of a day of the March year. -/
def monthOfDay (day : Nat) : Nat := (5 * day + 2) / 153

/-- Months have fixed places in a year that starts in March, so that all days
    can be gone through. -/
theorem monthOfDay_spec : ∀ day < 366,
    daysBeforeMonth (monthOfDay day) ≤ day ∧
      marchMonth (monthFromMarch (monthOfDay day)) = monthOfDay day ∧
      1 ≤ monthFromMarch (monthOfDay day) ∧ monthFromMarch (monthOfDay day) ≤ 12 := by
  decide +kernel

/-- Apart from a leap day the days of a month are as many as in any year. -/
theorem dayOfMonth_le : ∀ day < 366,
    day - daysBeforeMonth (monthOfDay day) + 1 ≤
      if monthFromMarch (monthOfDay day) = 2 then (if day = 365 then 29 else 28)
      else if monthFromMarch (monthOfDay day) ∈ [4, 6, 9, 11] then 30 else 31 := by
  decide +kernel

theorem monthFromMarch_of_leapDay : monthFromMarch (monthOfDay 365) = 2 := by decide

/-! ## Dates and days -/

/-- The era, and the place in it, of a day. -/
structure DayParts (days era : Int) (n century cycle year day : Nat) : Prop where
  days_eq : days + epochOffset = 146097 * era + n
  eraDay : EraDay n century cycle year day

theorem exists_dayParts (days : Int) :
    ∃ era n century cycle year day, DayParts days era n century cycle year day := by
  obtain ⟨century, cycle, year, day, h⟩ :=
    exists_eraDay (n := ((days + epochOffset) % 146097).toNat) (by omega)
  exact ⟨(days + epochOffset) / 146097, _, century, cycle, year, day, by omega, h⟩

namespace DayParts

variable {days era : Int} {n century cycle year day : Nat}

theorem n_lt (h : DayParts days era n century cycle year day) : n < 146097 := by
  obtain ⟨hn, hcentury, hcycle, hyear, hday, hleap⟩ := h.eraDay
  omega

theorem ofDays_eq (h : DayParts days era n century cycle year day) :
    ofDays days =
      { year := ((yearOfEra n : Nat) : Int) + era * 400 +
          (if monthFromMarch (monthOfDay day) ≤ 2 then 1 else 0)
        month := monthFromMarch (monthOfDay day)
        day := day - daysBeforeMonth (monthOfDay day) + 1 } := by
  have hlt := h.n_lt
  -- The parts are the quotient and the remainder that the algorithm takes.
  have hera : (days + epochOffset) / 146097 = era := by
    rw [h.days_eq]
    omega
  have hn : ((days + epochOffset) % 146097).toNat = n := by
    rw [h.days_eq]
    omega
  simp only [ofDays, hera, hn, h.eraDay.dayOfYear_eq]
  rfl

theorem toDays_ofDays (h : DayParts days era n century cycle year day) :
    (ofDays days).toDays = days := by
  have hday : day < 366 := Nat.lt_succ_of_le h.eraDay.day_le
  obtain ⟨hbefore, hmonth, _, _⟩ := monthOfDay_spec day hday
  have hyear : yearOfEra n < 400 := by
    have := h.eraDay.century_le
    have := h.eraDay.cycle_le
    have := h.eraDay.year_le
    rw [h.eraDay.yearOfEra_eq]
    omega
  have hsum := h.eraDay.sum
  have hdays := h.days_eq
  -- The March year is the year before for January and February.
  have hmarch : (if monthFromMarch (monthOfDay day) ≤ 2 then (ofDays days).year - 1
      else (ofDays days).year) = ((yearOfEra n : Nat) : Int) + era * 400 := by
    rw [h.ofDays_eq]
    dsimp only
    split <;> omega
  -- Counting back finds the same era and the same year of it.
  have hera : (((yearOfEra n : Nat) : Int) + era * 400) / 400 = era := by omega
  have hin : ((((yearOfEra n : Nat) : Int) + era * 400) % 400).toNat = yearOfEra n := by omega
  have hparts := h.ofDays_eq
  simp only [Date.toDays]
  rw [show (ofDays days).month = monthFromMarch (monthOfDay day) by rw [hparts],
    show (ofDays days).day = day - daysBeforeMonth (monthOfDay day) + 1 by rw [hparts],
    hmarch, hera, hin, hmonth, h.eraDay.daysBeforeYear_eq]
  omega

/-- Days lie in months that are long enough. -/
theorem exists_ofDays (h : DayParts days era n century cycle year day) :
    (ofDays days).exists = true := by
  have hday : day < 366 := Nat.lt_succ_of_le h.eraDay.day_le
  obtain ⟨_, _, hlow, hhigh⟩ := monthOfDay_spec day hday
  have hlen := dayOfMonth_le day hday
  have hmost : day - daysBeforeMonth (monthOfDay day) + 1 ≤
      daysInMonth (ofDays days).year (monthFromMarch (monthOfDay day)) := by
    unfold daysInMonth
    by_cases hfeb : monthFromMarch (monthOfDay day) = 2
    · rw [if_pos hfeb] at hlen ⊢
      by_cases hleap : day = 365
      · -- The leap day exists since the next year of the calendar is a leap year.
        obtain ⟨hyear, hcycle⟩ := h.eraDay.leap hleap
        have hcenturyLe := h.eraDay.century_le
        have hcycleLe := h.eraDay.cycle_le
        have hname : (ofDays days).year =
            400 * era + 100 * century + 4 * (cycle + 1) := by
          rw [h.ofDays_eq, h.eraDay.yearOfEra_eq, hleap, monthFromMarch_of_leapDay]
          simp only [Nat.le_refl, if_true]
          omega
        have hisLeap : isLeap (ofDays days).year = true := by
          rw [hname, isLeap]
          by_cases hlast : cycle = 24
          · have := hcycle hlast
            simp only [Bool.and_eq_true, Bool.or_eq_true, beq_iff_eq, bne_iff_ne]
            omega
          · simp only [Bool.and_eq_true, Bool.or_eq_true, beq_iff_eq, bne_iff_ne]
            omega
        rw [hisLeap, if_pos rfl]
        rwa [if_pos hleap] at hlen
      · -- The 28 days of any other year are enough.
        rw [if_neg hleap] at hlen
        split <;> omega
    · rw [if_neg hfeb] at hlen ⊢
      exact hlen
  rw [Date.exists, show (ofDays days).month = monthFromMarch (monthOfDay day) by rw [h.ofDays_eq],
    show (ofDays days).day = day - daysBeforeMonth (monthOfDay day) + 1 by rw [h.ofDays_eq]]
  simp only [Bool.and_eq_true, decide_eq_true_eq]
  exact ⟨⟨⟨hlow, hhigh⟩, by omega⟩, hmost⟩

end DayParts

theorem toDays_ofDays (days : Int) : (ofDays days).toDays = days := by
  obtain ⟨_, _, _, _, _, _, h⟩ := exists_dayParts days
  exact h.toDays_ofDays

theorem exists_ofDays (days : Int) : (ofDays days).exists = true := by
  obtain ⟨_, _, _, _, _, _, h⟩ := exists_dayParts days
  exact h.exists_ofDays

/-- Days of the first eras lie in years of at most four digits. -/
theorem year_ofDays_bounds {days : Int} (hlow : 0 ≤ days) (hhigh : days < 2000000) :
    0 ≤ (ofDays days).year ∧ (ofDays days).year ≤ 9999 := by
  obtain ⟨era, n, century, cycle, year, day, h⟩ := exists_dayParts days
  have hlt := h.n_lt
  have hdays := h.days_eq
  -- The era is between 4 and 9, counted from the year 0.
  have hcentury := h.eraDay.century_le
  have hcycle := h.eraDay.cycle_le
  have hyear := h.eraDay.year_le
  have hoffset : epochOffset = 719468 := rfl
  rw [h.ofDays_eq, h.eraDay.yearOfEra_eq]
  dsimp only
  split <;> omega

end ChainCodec.Calendar

/-! ## Date-time text -/

namespace ChainCodec.Iso

open Calendar

theorem isDigit_of_mem_padded {width n : Nat} {c : Char} (h : c ∈ padded width n) :
    c.isDigit = true := by
  rcases List.mem_append.1 h with h | h
  · rw [List.eq_of_mem_replicate h]
    rfl
  · exact Decimal.isDigit_of_mem_renderNat h

theorem padded_ne_nil (width n : Nat) : padded width n ≠ [] := by
  simp [padded, Decimal.renderNat_ne_nil]

theorem valueOf_padded (width n : Nat) : Decimal.valueOf (padded width n) = n := by
  unfold padded Decimal.valueOf
  rw [List.map_append, Radix.ofDigits_append_zeros]
  · exact Decimal.valueOf_renderNat n
  · intro z hz
    obtain ⟨c, hc, rfl⟩ := List.mem_map.1 hz
    rw [List.eq_of_mem_replicate hc]
    rfl

theorem length_digits_le (n : Nat) :
    (Radix.digits 10 n).length ≤ (Radix.digits 10 (n / 10)).length + 1 := by
  by_cases hn : n = 0
  · simp [hn]
  · simp [Radix.digits_of_pos (show 1 < 10 by decide) (Nat.pos_of_ne_zero hn)]

theorem length_padded_four {n : Nat} (h : n ≤ 9999) : (padded 4 n).length ≤ 4 := by
  -- Each digit divides by ten, and four of them leave nothing.
  have h₁ := length_digits_le n
  have h₂ := length_digits_le (n / 10)
  have h₃ := length_digits_le (n / 10 / 10)
  have h₄ := length_digits_le (n / 10 / 10 / 10)
  rw [show n / 10 / 10 / 10 / 10 = 0 by omega, Radix.digits_zero, List.length_nil] at h₄
  have hrender : (Decimal.renderNat n).length ≤ 4 := by
    unfold Decimal.renderNat
    split
    · simp
    · rw [List.length_map]
      omega
  simp only [padded, List.length_append, List.length_replicate]
  omega

theorem length_padded_two : ∀ n < 100, (padded 2 n).length = 2 := by decide

/-- Digits are read up to what follows them. -/
theorem number_append {limit : Option Nat} {ds rest : List Char} (hne : ds ≠ [])
    (hdigits : ∀ c ∈ ds, c.isDigit = true) (hrest : ∀ c ∈ rest.head?, c.isDigit = false)
    (hlimit : ∀ n ∈ limit, ds.length ≤ n) :
    number limit (ds ++ rest) = .ok (Decimal.valueOf ds, rest) := by
  have hleading : leadingDigits limit (ds ++ rest) = ds := by
    -- What follows stops the digits, and the limit does not cut them.
    have hstop : rest.takeWhile Char.isDigit = [] := by
      cases rest with
      | nil => rfl
      | cons c rest => simp [hrest c (by simp)]
    have htake : (ds ++ rest).takeWhile Char.isDigit = ds := by
      rw [List.takeWhile_append_of_pos hdigits, hstop, List.append_nil]
    unfold leadingDigits
    rw [htake]
    cases limit with
    | none => rfl
    | some n => exact List.take_of_length_le (hlimit n rfl)
  cases ds with
  | nil => exact absurd rfl hne
  | cons c ds =>
    rw [List.cons_append] at hleading ⊢
    simp only [number, hdigits c (by simp), if_true, hleading]
    simp

theorem not_isBlank_of_isDigit {c : Char} (h : c.isDigit = true) : isBlank c = false := by
  have hlow := Decimal.isDigit_iff.1 h
  simp only [isBlank, Bool.or_eq_false_iff, Bool.and_eq_false_iff, decide_eq_false_iff_not,
    beq_eq_false_iff_ne]
  omega

theorem dropWhile_isBlank {ds rest : List Char} (hne : ds ≠ [])
    (hdigits : ∀ c ∈ ds, c.isDigit = true) : (ds ++ rest).dropWhile isBlank = ds ++ rest := by
  cases ds with
  | nil => exact absurd rfl hne
  | cons c ds =>
    rw [List.cons_append, List.dropWhile_cons_of_neg]
    simp [not_isBlank_of_isDigit (hdigits c (by simp))]

/-- Two digits are read as the number that they pad. -/
theorem field_padded {low high n : Nat} {rest : List Char} (hn : n < 100)
    (hrange : low ≤ n ∧ n ≤ high) (hrest : ∀ c ∈ rest.head?, c.isDigit = false) :
    field low high (padded 2 n ++ rest) = .ok (n, rest) := by
  have hdigits : ∀ c ∈ padded 2 n, c.isDigit = true := fun c hc => isDigit_of_mem_padded hc
  have hnumber : number (some 2) (padded 2 n ++ rest) = .ok (n, rest) := by
    rw [number_append (padded_ne_nil 2 n) hdigits hrest, valueOf_padded]
    rintro m ⟨⟩
    exact Nat.le_of_eq (length_padded_two n hn)
  simp only [field, dropWhile_isBlank (padded_ne_nil 2 n) hdigits, Except.bind_ok hnumber,
    if_pos hrange]
  rfl

theorem signed_of_isDigit {c : Char} {cs : List Char} (h : c.isDigit = true) :
    signed (c :: cs) = (do
      let (n, rest) ← number (some 4) (c :: cs)
      pure ((n : Int), rest)) := by
  unfold signed
  split
  · rename_i heq
    obtain ⟨rfl, _⟩ := List.cons.inj heq
    cases h
  · rename_i heq
    obtain ⟨rfl, _⟩ := List.cons.inj heq
    cases h
  · rfl

theorem year_padded {y : Int} {rest : List Char} (hlow : 0 ≤ y) (hhigh : y ≤ 9999)
    (hrest : ∀ c ∈ rest.head?, c.isDigit = false) :
    year (padded 4 y.natAbs ++ rest) = .ok (y, rest) := by
  have hdigits : ∀ c ∈ padded 4 y.natAbs, c.isDigit = true := fun c hc =>
    isDigit_of_mem_padded hc
  have hnumber : number (some 4) (padded 4 y.natAbs ++ rest) = .ok (y.natAbs, rest) := by
    rw [number_append (padded_ne_nil 4 y.natAbs) hdigits hrest, valueOf_padded]
    rintro m ⟨⟩
    exact length_padded_four (by omega)
  have habs : ((y.natAbs : Nat) : Int) = y := by omega
  -- A digit comes first, so there is no sign to read.
  have hsigned : signed (padded 4 y.natAbs ++ rest) = .ok (y, rest) := by
    cases hp : padded 4 y.natAbs with
    | nil => exact absurd hp (padded_ne_nil 4 _)
    | cons c cs =>
      rw [hp] at hnumber hdigits
      rw [List.cons_append] at hnumber ⊢
      rw [signed_of_isDigit (hdigits c (by simp)), Except.bind_ok hnumber]
      exact congrArg (fun z => Except.ok (z, rest)) habs
  have hrange : -(negativeYears : Int) ≤ y ∧ y < negativeYears := by
    have : negativeYears = 2147483648 := rfl
    omega
  simp only [year, dropWhile_isBlank (padded_ne_nil 4 y.natAbs) hdigits,
    Except.bind_ok hsigned, if_pos hrange]
  rfl

theorem inRange_of_plain {y : Int} (hlow : 0 ≤ y) (hhigh : y ≤ 9999) : inRange y = true := by
  rw [inRange, Bool.and_eq_true, decide_eq_true_eq, decide_eq_true_eq]
  unfold leastYear greatestYear
  omega

theorem literal_cons (c : Char) (cs : List Char) : literal c (c :: cs) = .ok cs := by
  simp [literal]

/-- A date-time with a year of at most four digits. -/
structure Plain (t : DateTime) : Prop where
  year : 0 ≤ t.date.year ∧ t.date.year ≤ 9999
  date : t.date.exists = true
  hour : t.hour ≤ 23
  minute : t.minute ≤ 59
  second : t.second ≤ 59

theorem fields_of_exists {d : Date} (h : d.exists = true) :
    (1 ≤ d.month ∧ d.month ≤ 12) ∧ 1 ≤ d.day ∧ d.day ≤ 31 := by
  simp only [Date.exists, Bool.and_eq_true, decide_eq_true_eq] at h
  obtain ⟨⟨⟨hlow, hhigh⟩, hday⟩, hmost⟩ := h
  refine ⟨⟨hlow, hhigh⟩, hday, Nat.le_trans hmost ?_⟩
  unfold daysInMonth
  split
  · split <;> omega
  · split <;> omega

/-- Fields and separators in the order in which they are read. -/
theorem renderChars_eq {t : DateTime} (hyear : 0 ≤ t.date.year ∧ t.date.year ≤ 9999) :
    renderChars t = padded 4 t.date.year.natAbs ++ '-' :: (padded 2 t.date.month ++
      '-' :: (padded 2 t.date.day ++ 'T' :: (padded 2 t.hour ++ ':' :: (padded 2 t.minute ++
        ':' :: (padded 2 t.second ++ []))))) := by
  simp only [renderChars, renderYear, if_pos hyear, List.append_assoc, List.cons_append,
    List.append_nil]

/-- What stands behind a written date-time does not count, if all of it is
    skipped with the fraction of the second. -/
theorem parseChars_append {t : DateTime} {rest : List Char} (h : Plain t)
    (hrest : ∀ c ∈ rest.head?, c.isDigit = false) (hfraction : fraction rest = .ok []) :
    parseChars (renderChars t ++ rest) = .ok t.toSeconds := by
  obtain ⟨⟨hlow, hhigh⟩, hdate, hhour, hminute, hsecond⟩ := h
  obtain ⟨hmonth, hday⟩ := fields_of_exists hdate
  have hyear : inRange t.date.year = true := inRange_of_plain hlow hhigh
  -- No separator is a digit, so each stops the number in front of it.
  have hstop : ∀ {c : Char} {cs : List Char}, c.isDigit = false →
      ∀ d ∈ (c :: cs).head?, d.isDigit = false := by
    rintro c cs hc d ⟨⟩
    exact hc
  have hleap : min t.second 59 = t.second := Nat.min_eq_left hsecond
  -- One step of the parser for each field and each separator.
  simp only [parseChars, renderChars_eq ⟨hlow, hhigh⟩, List.append_assoc, List.cons_append,
    List.nil_append]
  rw [Except.bind_ok (year_padded hlow hhigh (hstop rfl)), Except.bind_ok (literal_cons _ _),
    Except.bind_ok (field_padded (by omega) hmonth (hstop rfl)),
    Except.bind_ok (literal_cons _ _),
    Except.bind_ok (field_padded (by omega) hday (hstop rfl)),
    Except.bind_ok (literal_cons _ _),
    Except.bind_ok (field_padded (by omega) ⟨Nat.zero_le _, hhour⟩ (hstop rfl)),
    Except.bind_ok (literal_cons _ _),
    Except.bind_ok (field_padded (by omega) ⟨Nat.zero_le _, hminute⟩ (hstop rfl)),
    Except.bind_ok (literal_cons _ _),
    Except.bind_ok (field_padded (by omega) ⟨Nat.zero_le _, by omega⟩ hrest),
    Except.bind_ok hfraction, hleap]
  -- Nothing is left and there is no leap second, and the date exists.
  have hpass : (t.date.exists && inRange t.date.year) = true := by rw [hdate, hyear]; rfl
  change (if (t.date.exists && inRange t.date.year) = true then _ else _) = _
  rw [if_pos hpass]
  rfl

theorem parseChars_renderChars {t : DateTime} (h : Plain t) :
    parseChars (renderChars t) = .ok t.toSeconds := by
  rw [← List.append_nil (renderChars t)]
  exact parseChars_append h (by rintro c ⟨⟩) rfl

theorem plain_ofSeconds {n : Int} (hlow : 0 ≤ n) (hhigh : n < UInt32.size) :
    Plain (DateTime.ofSeconds n) := by
  have hsize : (UInt32.size : Int) = 4294967296 := rfl
  have hday : secondsPerDay = 86400 := rfl
  constructor
  · exact year_ofDays_bounds (by rw [hday]; omega) (by rw [hday]; omega)
  · exact exists_ofDays _
  · simp only [DateTime.ofSeconds, hday]
    omega
  · simp only [DateTime.ofSeconds]
    omega
  · simp only [DateTime.ofSeconds]
    omega

theorem toSeconds_ofSeconds (n : Int) : (DateTime.ofSeconds n).toSeconds = n := by
  have hday : secondsPerDay = 86400 := rfl
  simp only [DateTime.toSeconds, DateTime.ofSeconds, toDays_ofDays, hday]
  omega

/-- A digit at the end is not the mark of a time zone. -/
theorem dropZone_of_isDigit {cs : List Char} {c : Char} (hc : c.isDigit = true) :
    dropZone (cs ++ [c]) = cs ++ [c] := by
  rw [dropZone, List.getLast?_concat, if_neg]
  rintro ⟨⟩
  cases hc

theorem dropZone_renderChars (t : DateTime) : dropZone (renderChars t) = renderChars t := by
  have hlast : ∃ cs c, renderChars t = cs ++ [c] ∧ c.isDigit = true := by
    have hne := padded_ne_nil 2 t.second
    refine ⟨renderYear t.date.year ++ '-' :: padded 2 t.date.month ++ '-' ::
      padded 2 t.date.day ++ 'T' :: padded 2 t.hour ++ ':' :: padded 2 t.minute ++ ':' ::
        (padded 2 t.second).dropLast, (padded 2 t.second).getLast hne, ?_,
      isDigit_of_mem_padded (List.getLast_mem hne)⟩
    simp only [renderChars, List.append_assoc, List.cons_append, List.dropLast_concat_getLast]
  obtain ⟨cs, c, hcs, hc⟩ := hlast
  rw [hcs, dropZone_of_isDigit hc]

/-- The times of the wire have a text, and the text is read as the time. -/
theorem exists_render {n : Int} (hlow : 0 ≤ n) (hhigh : n < UInt32.size) :
    ∃ text, render? n = some text ∧ text.toList.contains 'T' = true ∧ parse text = .ok n := by
  have hplain := plain_ofSeconds hlow hhigh
  have hyear : inRange (DateTime.ofSeconds n).date.year = true :=
    inRange_of_plain hplain.year.1 hplain.year.2
  refine ⟨String.ofList (renderChars (DateTime.ofSeconds n)), ?_, ?_, ?_⟩
  · simp only [render?, hyear, if_true]
  · simp [renderChars]
  · rw [parse, String.toList_ofList, dropZone_renderChars, parseChars_renderChars hplain,
      toSeconds_ofSeconds]

end ChainCodec.Iso
