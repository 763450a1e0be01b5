import EventScript.Toml.Reader

/-!
Dates and times of a document: a date, a time of day, or a date and a time with or without an
offset. Days have to exist in their month, and a minute may have a leap second. Only their form
matters here, so the readers answer nothing.
-/

namespace EventScript.Toml

/-- A number of exactly so many decimal digits. -/
def fixedDigits (count : Nat) : Reader Nat := fun chars =>
  let digits := chars.take count
  if digits.length = count && digits.all Char.isDigit then
    some (Nat.ofDigitChars 10 digits 0, chars.drop count)
  else none

/-- A number of two digits within bounds. -/
def twoDigits (least most : Nat) : Reader Nat := do
  let n ← fixedDigits 2
  guard (least ≤ n && n ≤ most)
  return n

/-- The year has a 29th of February. -/
def isLeapYear (year : Nat) : Bool := year % 4 = 0 && (year % 100 ≠ 0 || year % 400 = 0)

/-- The number of days of a month. -/
def daysOf (year month : Nat) : Nat :=
  if month = 2 then (if isLeapYear year then 29 else 28)
  else if month = 4 || month = 6 || month = 9 || month = 11 then 30
  else 31

/-- A date: year, month and day. -/
def date : Reader Unit := do
  let year ← fixedDigits 4
  Reader.expect '-'
  let month ← twoDigits 1 12
  Reader.expect '-'
  let _ ← twoDigits 1 (daysOf year month)

/-- A fraction of a second, if there is one. -/
def fraction : Reader Unit := fun chars =>
  match chars with
  | '.' :: c :: rest =>
    if c.isDigit then some ((), rest.dropWhile Char.isDigit) else some ((), chars)
  | _ => some ((), chars)

/-- A time of day: hour, minute and second. -/
def time : Reader Unit := do
  let _ ← twoDigits 0 23
  Reader.expect ':'
  let _ ← twoDigits 0 59
  Reader.expect ':'
  let _ ← twoDigits 0 60
  fraction

/-- An offset from universal time, if there is one. -/
def offset : Reader Unit := do
  match ← Reader.rest with
  | 'Z' :: rest | 'z' :: rest => set rest
  | '+' :: rest | '-' :: rest =>
    set rest
    let _ ← twoDigits 0 23
    Reader.expect ':'
    let _ ← twoDigits 0 59
  | _ => return ()

/-- A time and an offset after a date, if there is a time. -/
def timeAfterDate : Reader Unit := fun chars =>
  match chars with
  | c :: rest =>
    if c = 'T' || c = 't' || c = ' ' then
      match time rest with
      | some ((), afterTime) => offset afterTime
      | none => some ((), chars)
    else some ((), chars)
  | [] => some ((), [])

/-- A date, a time, or both. -/
def moment : Reader Unit := (do date; timeAfterDate) <|> time

end EventScript.Toml
