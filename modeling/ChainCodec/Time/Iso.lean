import ChainCodec.Text.Decimal
import ChainCodec.Time.Calendar

/-! # Date-times as text

    The form is `YYYY-MM-DDTHH:MM:SS`, in UTC.  Written years have at least
    four digits and carry a sign once they leave 0 to 9999.

    Reading goes from left to right and stops at the first fault.  It is more
    liberal than writing: blanks may stand before a number, numbers may drop
    leading zeros, a signed year may have any number of digits, and a
    fraction of a second and a final `Z` are accepted and ignored. -/

namespace ChainCodec.Iso

open Calendar

inductive Fault where
  | tooShort
  | invalid
  | outOfRange
  | trailing
  deriving DecidableEq, Repr

def Fault.message : Fault → String
  | .tooShort => "premature end of input"
  | .invalid => "input contains invalid characters"
  | .outOfRange => "input is out of range"
  | .trailing => "trailing input"

/-! ## Writing -/

/-- At least `width` digits. -/
def padded (width n : Nat) : List Char :=
  let digits := Decimal.renderNat n
  List.replicate (width - digits.length) '0' ++ digits

def renderYear (year : Int) : List Char :=
  if 0 ≤ year ∧ year ≤ 9999 then padded 4 year.natAbs
  else (if year < 0 then '-' else '+') :: padded 4 year.natAbs

def renderChars (t : DateTime) : List Char :=
  renderYear t.date.year ++ '-' :: padded 2 t.date.month ++ '-' :: padded 2 t.date.day ++
    'T' :: padded 2 t.hour ++ ':' :: padded 2 t.minute ++ ':' :: padded 2 t.second

/-- The text of a number of seconds since 1970, if its year can be told. -/
def render? (seconds : Int) : Option String :=
  let t := DateTime.ofSeconds seconds
  if inRange t.date.year then some (String.ofList (renderChars t)) else none

/-! ## Reading -/

/-- The characters of Unicode's `White_Space` property. -/
def isBlank (c : Char) : Bool :=
  let n := c.toNat
  (0x09 ≤ n && n ≤ 0x0d) || n == 0x20 || n == 0x85 || n == 0xa0 || n == 0x1680 ||
    (0x2000 ≤ n && n ≤ 0x200a) || n == 0x2028 || n == 0x2029 || n == 0x202f ||
    n == 0x205f || n == 0x3000

/-- One character that has to be there. -/
def literal (expected : Char) : List Char → Except Fault (List Char)
  | [] => .error .tooShort
  | c :: rest => if c = expected then .ok rest else .error .invalid

/-- The leading digits, at most `limit` of them if there is a limit. -/
def leadingDigits (limit : Option Nat) (cs : List Char) : List Char :=
  let digits := cs.takeWhile Char.isDigit
  match limit with
  | some n => digits.take n
  | none => digits

/-- A number of at least one digit, and what follows it. -/
def number (limit : Option Nat) (cs : List Char) : Except Fault (Nat × List Char) :=
  match cs with
  | [] => .error .tooShort
  | c :: _ =>
      if c.isDigit then
        let digits := leadingDigits limit cs
        .ok (Decimal.valueOf digits, cs.drop digits.length)
      else .error .invalid

/-- A number of one or two digits that lies in `low` to `high`. -/
def field (low high : Nat) (cs : List Char) : Except Fault (Nat × List Char) := do
  let (n, rest) ← number (some 2) (cs.dropWhile isBlank)
  if low ≤ n ∧ n ≤ high then pure (n, rest) else throw .outOfRange

/-- Four digits at most, or a sign and any number of digits. -/
def signed : List Char → Except Fault (Int × List Char)
  | '-' :: ds => do
      let (n, rest) ← number none ds
      pure (-(n : Int), rest)
  | '+' :: ds => do
      let (n, rest) ← number none ds
      pure ((n : Int), rest)
  | ds => do
      let (n, rest) ← number (some 4) ds
      pure ((n : Int), rest)

/-- How many of the signed 32-bit numbers are negative. -/
def negativeYears : Nat := UInt32.size / 2

/-- A year, which has to fit 32 bits. -/
def year (cs : List Char) : Except Fault (Int × List Char) := do
  let (y, rest) ← signed (cs.dropWhile isBlank)
  if -(negativeYears : Int) ≤ y ∧ y < negativeYears then pure (y, rest) else throw .outOfRange

/-- Skips a point and the digits after it. -/
def fraction (cs : List Char) : Except Fault (List Char) :=
  match cs with
  | '.' :: ds => do let (_, rest) ← number none ds; pure rest
  | _ => .ok cs

/-- The written form without a final `Z`. -/
def dropZone (cs : List Char) : List Char :=
  if cs.getLast? = some 'Z' then cs.dropLast else cs

def parseChars (cs : List Char) : Except Fault Int := do
  let (y, cs) ← year cs
  let cs ← literal '-' cs
  let (month, cs) ← field 1 12 cs
  let cs ← literal '-' cs
  let (day, cs) ← field 1 31 cs
  let cs ← literal 'T' cs
  let (hour, cs) ← field 0 23 cs
  let cs ← literal ':' cs
  let (minute, cs) ← field 0 59 cs
  let cs ← literal ':' cs
  let (second, cs) ← field 0 60 cs
  let cs ← fraction cs
  if ¬ cs.isEmpty then throw .trailing
  let date : Date := ⟨y, month, day⟩
  if date.exists && inRange y then
    -- A leap second is told as the second before it.
    pure (DateTime.toSeconds ⟨date, hour, minute, min second 59⟩)
  else throw .outOfRange

/-- Seconds since 1970 of a date-time text. -/
def parse (text : String) : Except Fault Int := parseChars (dropZone text.toList)

end ChainCodec.Iso
