/-!
Calendar dates and times of day, without a time zone, and their text. The parts of a value are
in range by its type, so the text never has to deal with a thirteenth month. The text is made of
decimal digits, which other literals are made of too.
-/

namespace EntitySql

namespace Digits

/-! Decimal digits, with a minus sign where needed or zeros in front up to a width, and upper-case
hexadecimal bytes. -/

def nat (n : Nat) : List Char := Nat.toDigits 10 n

/-- Decimal digits with zeros in front up to `width`; longer numbers keep all their digits. -/
def padded (width n : Nat) : List Char := (nat n).leftpad width '0'

def int (n : Int) : List Char := if n < 0 then '-' :: nat n.natAbs else nat n.natAbs

def hexDigit (n : Nat) : Char := if n < 10 then Char.ofNat (48 + n) else Char.ofNat (55 + n)

def hexByte (b : UInt8) : List Char := [hexDigit (b.toNat / 16), hexDigit (b.toNat % 16)]

end Digits

/-- Leap years of the Gregorian calendar, extended to all years. -/
def isLeapYear (year : Int) : Bool :=
  year % 4 == 0 && (year % 100 != 0 || year % 400 == 0)

def daysInMonth (year : Int) (month : Nat) : Nat :=
  if month = 2 then (if isLeapYear year then 29 else 28)
  else if month = 4 ∨ month = 6 ∨ month = 9 ∨ month = 11 then 30
  else 31

structure Date where
  year : Int
  month : Nat
  day : Nat
  month_range : 1 ≤ month ∧ month ≤ 12
  day_range : 1 ≤ day ∧ day ≤ daysInMonth year month
  deriving DecidableEq, Repr

def Date.ofParts? (year : Int) (month day : Nat) : Option Date :=
  if hm : 1 ≤ month ∧ month ≤ 12 then
    if hd : 1 ≤ day ∧ day ≤ daysInMonth year month then some ⟨year, month, day, hm, hd⟩
    else none
  else none

/-- A time of day. A leap second is the second after 59 and is kept as second 59 with a
billion or more nanoseconds. -/
structure TimeOfDay where
  hour : Nat
  minute : Nat
  second : Nat
  nanosecond : Nat
  clock_range : hour < 24 ∧ minute < 60 ∧ second < 60
  nanosecond_range : nanosecond < 1000000000 ∨ (nanosecond < 2000000000 ∧ second = 59)
  deriving DecidableEq, Repr

def TimeOfDay.ofParts? (hour minute second nanosecond : Nat) : Option TimeOfDay :=
  if hc : hour < 24 ∧ minute < 60 ∧ second < 60 then
    if hn : nanosecond < 1000000000 ∨ (nanosecond < 2000000000 ∧ second = 59) then
      some ⟨hour, minute, second, nanosecond, hc, hn⟩
    else none
  else none

structure Timestamp where
  date : Date
  time : TimeOfDay
  deriving DecidableEq, Repr

def Timestamp.epoch : Timestamp :=
  ⟨⟨1970, 1, 1, by decide, by decide⟩, ⟨0, 0, 0, 0, by decide, by decide⟩⟩

instance : Inhabited Timestamp := ⟨Timestamp.epoch⟩

/-- Four digits; a year that does not fit into four carries its sign. -/
def yearChars (year : Int) : List Char :=
  if 0 ≤ year ∧ year ≤ 9999 then Digits.padded 4 year.natAbs
  else (if year < 0 then '-' else '+') :: Digits.padded 4 year.natAbs

def Date.chars (d : Date) : List Char :=
  yearChars d.year ++ '-' :: (Digits.padded 2 d.month ++ '-' :: Digits.padded 2 d.day)

def TimeOfDay.isLeap (t : TimeOfDay) : Bool := 1000000000 ≤ t.nanosecond

/-- Hour, minute and second; a nanosecond part adds six truncated digits after a point. -/
def TimeOfDay.chars (t : TimeOfDay) : List Char :=
  let second := if t.isLeap then t.second + 1 else t.second
  let clock := Digits.padded 2 t.hour ++
    ':' :: (Digits.padded 2 t.minute ++ ':' :: Digits.padded 2 second)
  if t.nanosecond = 0 then clock
  else clock ++ '.' :: Digits.padded 6 (t.nanosecond % 1000000000 / 1000)

def Timestamp.chars (t : Timestamp) : List Char := t.date.chars ++ ' ' :: t.time.chars

end EntitySql
