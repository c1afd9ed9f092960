import ChainCodec.Proofs.Time

/-! # The calendar in order

    A date is before another one by its year, else by its month, else by its
    day; and then its place on the line of days is before that of the other.
    The months follow each other on that line without gaps: the first day of a
    month comes `daysInMonth` after the first day of the month before.  So a
    day of a month that exists is before the first day of any later month.

    Seconds are counted in the same order: `toSeconds_lt_toSeconds`. -/

namespace ChainCodec.Calendar

/-! ## Months on the line of days -/

/-- The days before a March year, up to a constant. -/
def daysBeforeMarch (year : Int) : Int := 365 * year + year / 4 - year / 100 + year / 400

theorem toDays_eq (d : Date) :
    d.toDays = daysBeforeMarch (if d.month ≤ 2 then d.year - 1 else d.year) +
      ((daysBeforeMonth (marchMonth d.month) + d.day - 1 : Nat) : Int) - epochOffset := by
  simp only [Date.toDays]
  generalize (if d.month ≤ 2 then d.year - 1 else d.year) = y
  unfold daysBeforeMarch daysBeforeYear
  omega

/-- A March year has a leap day if it ends in a leap year. -/
theorem daysBeforeMarch_sub_one (year : Int) :
    daysBeforeMarch year = daysBeforeMarch (year - 1) + (if isLeap year then 366 else 365) := by
  have hleap : isLeap year = true ↔ year % 4 = 0 ∧ (year % 100 ≠ 0 ∨ year % 400 = 0) := by
    simp only [isLeap, Bool.and_eq_true, Bool.or_eq_true, beq_iff_eq, bne_iff_ne]
  unfold daysBeforeMarch
  split
  · rename_i h
    have := hleap.1 h
    omega
  · rename_i h
    have := mt hleap.2 h
    omega

/-- The months other than February are as long in every year. -/
theorem daysBeforeMonth_next : ∀ month < 12, 1 ≤ month → month ≠ 2 →
    daysBeforeMonth (marchMonth (month + 1)) =
      daysBeforeMonth (marchMonth month) + (if month ∈ [4, 6, 9, 11] then 30 else 31) := by
  decide

/-- The next month starts where a month ends. -/
theorem toDays_next_month (year : Int) {month : Nat} (hlow : 1 ≤ month) (hhigh : month < 12) :
    (Date.mk year (month + 1) 1).toDays =
      (Date.mk year month 1).toDays + daysInMonth year month := by
  rw [toDays_eq, toDays_eq, daysInMonth]
  dsimp only
  by_cases hfeb : month = 2
  · -- In March the next March year has begun.
    subst hfeb
    have hmarch := daysBeforeMarch_sub_one year
    have hfirst : daysBeforeMonth (marchMonth 3) = 0 := rfl
    have hlast : daysBeforeMonth (marchMonth 2) = 337 := rfl
    rw [if_neg (by decide), if_pos (Nat.le_refl 2), if_pos rfl, hfirst, hlast, hmarch]
    split <;> omega
  · have hnext := daysBeforeMonth_next month hhigh hlow hfeb
    have hyear : (if month + 1 ≤ 2 then year - 1 else year) =
        if month ≤ 2 then year - 1 else year := if_congr (by omega) rfl rfl
    rw [if_neg hfeb, hyear, hnext]
    omega

theorem toDays_next_year (year : Int) :
    (Date.mk (year + 1) 1 1).toDays = (Date.mk year 12 1).toDays + daysInMonth year 12 := by
  have hjanuary : daysBeforeMonth (marchMonth 1) = 306 := rfl
  have hdecember : daysBeforeMonth (marchMonth 12) = 275 := rfl
  have hlength : daysInMonth year 12 = 31 := rfl
  rw [toDays_eq, toDays_eq]
  dsimp only
  rw [if_pos (by decide), if_neg (by decide), hjanuary, hdecember, hlength,
    Int.add_sub_cancel]
  omega

/-! ## All months in one row -/

/-- The first day of a month, where the months are counted through, twelve to
    a year. -/
def firstDay (index : Int) : Int :=
  (Date.mk (index / 12) ((index % 12).toNat + 1) 1).toDays

def lengthAt (index : Int) : Nat := daysInMonth (index / 12) ((index % 12).toNat + 1)

theorem firstDay_add_one (index : Int) :
    firstDay (index + 1) = firstDay index + lengthAt index := by
  unfold firstDay lengthAt
  by_cases hlast : index % 12 = 11
  · -- After a December the next year begins.
    have hyear : (index + 1) / 12 = index / 12 + 1 := by omega
    have hmonth : ((index + 1) % 12).toNat + 1 = 1 := by omega
    rw [hyear, hmonth, toDays_next_year, hlast]
    rfl
  · have hyear : (index + 1) / 12 = index / 12 := by omega
    have hmonth : ((index + 1) % 12).toNat = (index % 12).toNat + 1 := by omega
    rw [hyear, hmonth, toDays_next_month _ (by omega) (by omega)]

theorem firstDay_le_firstDay {i j : Int} (h : i ≤ j) : firstDay i ≤ firstDay j := by
  obtain ⟨k, rfl⟩ := Int.le.dest h
  -- By induction on the number of months from one to the other.
  clear h
  induction k with
  | zero => exact Int.le_of_eq (congrArg firstDay (Int.add_zero i).symm)
  | succ k ih =>
    have hnext := firstDay_add_one (i + k)
    rw [Int.natCast_add, ← Int.add_assoc]
    change _ ≤ firstDay (i + k + 1)
    omega

/-! ## Dates -/

def Date.monthIndex (d : Date) : Int := 12 * d.year + d.month - 1

/-- A day that exists is counted from the first day of its month, and there
    are as many days in that month. -/
theorem toDays_eq_firstDay {d : Date} (h : d.exists = true) :
    d.toDays = firstDay d.monthIndex + d.day - 1 ∧ d.day ≤ lengthAt d.monthIndex := by
  obtain ⟨hmonth, hday⟩ := Iso.fields_of_exists h
  have hyear : d.monthIndex / 12 = d.year := by
    unfold Date.monthIndex
    omega
  have hindex : (d.monthIndex % 12).toNat + 1 = d.month := by
    unfold Date.monthIndex
    omega
  rw [firstDay, lengthAt, hyear, hindex]
  constructor
  · rw [toDays_eq, toDays_eq]
    dsimp only
    omega
  · simp only [Date.exists, Bool.and_eq_true, decide_eq_true_eq] at h
    exact h.2

/-- By year, then by month, then by day. -/
def Date.Before (d e : Date) : Prop :=
  d.year < e.year ∨ d.year = e.year ∧
    (d.month < e.month ∨ d.month = e.month ∧ d.day < e.day)

theorem toDays_lt_toDays {d e : Date} (hd : d.exists = true) (he : e.exists = true)
    (h : d.Before e) : d.toDays < e.toDays := by
  obtain ⟨hdays, hlength⟩ := toDays_eq_firstDay hd
  obtain ⟨hdays', -⟩ := toDays_eq_firstDay he
  obtain ⟨hmonth, -⟩ := Iso.fields_of_exists hd
  obtain ⟨hmonth', hday', -⟩ := Iso.fields_of_exists he
  have hindex : d.monthIndex = 12 * d.year + d.month - 1 := rfl
  have hindex' : e.monthIndex = 12 * e.year + e.month - 1 := rfl
  unfold Date.Before at h
  rcases Int.lt_or_le d.monthIndex e.monthIndex with hlt | hle
  · -- The first date is over before the next month begins.
    have hnext := firstDay_add_one d.monthIndex
    have hmono := firstDay_le_firstDay (show d.monthIndex + 1 ≤ e.monthIndex by omega)
    omega
  · -- In one month the days decide.
    have hsame : d.monthIndex = e.monthIndex := by omega
    rw [hdays, hdays', hsame]
    omega

/-! ## Date-times -/

/-- By date, then by hour, then by minute, then by second. -/
def DateTime.Before (t u : DateTime) : Prop :=
  t.date.Before u.date ∨ t.date = u.date ∧
    (t.hour < u.hour ∨ t.hour = u.hour ∧
      (t.minute < u.minute ∨ t.minute = u.minute ∧ t.second < u.second))

/-- The six fields in the order in which they decide. -/
theorem DateTime.Before.fields {t u : DateTime} (h : t.Before u) :
    t.date.year < u.date.year ∨ t.date.year = u.date.year ∧
      (t.date.month < u.date.month ∨ t.date.month = u.date.month ∧
        (t.date.day < u.date.day ∨ t.date.day = u.date.day ∧
          (t.hour < u.hour ∨ t.hour = u.hour ∧
            (t.minute < u.minute ∨ t.minute = u.minute ∧ t.second < u.second)))) := by
  rcases h with (hyear | ⟨hyear, hmonth | ⟨hmonth, hday⟩⟩) | ⟨hdate, htime⟩
  · exact .inl hyear
  · exact .inr ⟨hyear, .inl hmonth⟩
  · exact .inr ⟨hyear, .inr ⟨hmonth, .inl hday⟩⟩
  · rw [hdate]
    exact .inr ⟨rfl, .inr ⟨rfl, .inr ⟨rfl, htime⟩⟩⟩

theorem Date.before_trichotomy (d e : Date) : d.Before e ∨ d = e ∨ e.Before d := by
  obtain ⟨y, m, a⟩ := d
  obtain ⟨y', m', a'⟩ := e
  simp only [Date.Before, Date.mk.injEq]
  omega

theorem DateTime.before_trichotomy (t u : DateTime) : t.Before u ∨ t = u ∨ u.Before t := by
  obtain ⟨d, h, m, s⟩ := t
  obtain ⟨e, h', m', s'⟩ := u
  simp only [DateTime.Before, DateTime.mk.injEq]
  rcases Date.before_trichotomy d e with hdate | rfl | hdate
  · exact .inl (.inl hdate)
  · simp only [true_and]
    omega
  · exact .inr (.inr (.inl hdate))

end ChainCodec.Calendar

namespace ChainCodec.Iso

open Calendar

theorem toSeconds_lt_toSeconds {t u : DateTime} (ht : Plain t) (hu : Plain u) (h : t.Before u) :
    t.toSeconds < u.toSeconds := by
  obtain ⟨-, hdate, hhour, hminute, hsecond⟩ := ht
  obtain ⟨-, hdate', -, -, -⟩ := hu
  have hday : secondsPerDay = 86400 := rfl
  unfold DateTime.toSeconds
  rcases h with hbefore | ⟨hsame, htime⟩
  · -- A whole day lies between them, and no time of day is as long.
    have := toDays_lt_toDays hdate hdate' hbefore
    rw [hday]
    omega
  · rw [hsame, hday]
    omega

/-- Later seconds have later date-times. -/
theorem ofSeconds_before {m n : Int} (hm : Plain (DateTime.ofSeconds m))
    (hn : Plain (DateTime.ofSeconds n)) (h : m < n) :
    (DateTime.ofSeconds m).Before (DateTime.ofSeconds n) := by
  rcases DateTime.before_trichotomy (.ofSeconds m) (.ofSeconds n) with hbefore | hsame | hafter
  · exact hbefore
  · have := congrArg DateTime.toSeconds hsame
    rw [toSeconds_ofSeconds, toSeconds_ofSeconds] at this
    omega
  · have := toSeconds_lt_toSeconds hn hm hafter
    rw [toSeconds_ofSeconds, toSeconds_ofSeconds] at this
    omega

end ChainCodec.Iso
