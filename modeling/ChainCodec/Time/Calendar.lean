/-! # The civil calendar

    Dates of the proleptic Gregorian calendar and their place on the line of
    days, counted from 1970-01-01.

    The calendar repeats every 400 years, an era of 146097 days.  Inside an
    era the year is taken to start in March, so that the leap day comes last
    and the months before it have lengths in a fixed pattern of five. -/

namespace ChainCodec.Calendar

structure Date where
  year : Int
  month : Nat
  day : Nat
  deriving DecidableEq, Repr

def isLeap (year : Int) : Bool :=
  year % 4 == 0 && (year % 100 != 0 || year % 400 == 0)

def daysInMonth (year : Int) (month : Nat) : Nat :=
  if month = 2 then (if isLeap year then 29 else 28)
  else if month ∈ [4, 6, 9, 11] then 30 else 31

def Date.exists (d : Date) : Bool :=
  1 ≤ d.month && d.month ≤ 12 && 1 ≤ d.day && d.day ≤ daysInMonth d.year d.month

/-! ## Days to dates and back -/

/-- The days from 0000-03-01, where an era starts, to 1970-01-01. -/
def epochOffset : Int := 719468

/-- The month of the calendar that is the `n`-th month counted from March. -/
def monthFromMarch (n : Nat) : Nat := if n < 10 then n + 3 else n - 9

def marchMonth (month : Nat) : Nat := if 2 < month then month - 3 else month + 9

/-- The day of the March year on which the `n`-th month from March starts. -/
def daysBeforeMonth (n : Nat) : Nat := (153 * n + 2) / 5

/-- The days of an era before its March year `y`. -/
def daysBeforeYear (y : Nat) : Nat := 365 * y + y / 4 - y / 100

/-- The March year in which day `n` of an era falls. -/
def yearOfEra (n : Nat) : Nat := (n - n / 1460 + n / 36524 - n / 146096) / 365

def ofDays (days : Int) : Date :=
  let shifted := days + epochOffset
  let era := shifted / 146097
  let dayOfEra := (shifted % 146097).toNat
  let yearInEra := yearOfEra dayOfEra
  let dayOfYear := dayOfEra - daysBeforeYear yearInEra
  let m := (5 * dayOfYear + 2) / 153
  let month := monthFromMarch m
  { year := yearInEra + era * 400 + (if month ≤ 2 then 1 else 0)
    month := month
    day := dayOfYear - daysBeforeMonth m + 1 }

def Date.toDays (d : Date) : Int :=
  let year := if d.month ≤ 2 then d.year - 1 else d.year
  let era := year / 400
  let yearInEra := (year % 400).toNat
  let dayOfYear := daysBeforeMonth (marchMonth d.month) + d.day - 1
  era * 146097 + ((daysBeforeYear yearInEra + dayOfYear : Nat) : Int) - epochOffset

/-! ## Date and time of day -/

structure DateTime where
  date : Date
  hour : Nat
  minute : Nat
  second : Nat
  deriving DecidableEq, Repr

def secondsPerDay : Int := 86400

/-- Seconds since 1970-01-01T00:00:00. -/
def DateTime.toSeconds (t : DateTime) : Int :=
  t.date.toDays * secondsPerDay + (t.hour * 3600 + t.minute * 60 + t.second : Nat)

def DateTime.ofSeconds (s : Int) : DateTime :=
  let rest := (s % secondsPerDay).toNat
  { date := ofDays (s / secondsPerDay)
    hour := rest / 3600
    minute := rest / 60 % 60
    second := rest % 60 }

/-- The first and the last year in which times can be told. -/
def leastYear : Int := -262143

def greatestYear : Int := 262142

def inRange (year : Int) : Bool := leastYear ≤ year && year ≤ greatestYear

end ChainCodec.Calendar
