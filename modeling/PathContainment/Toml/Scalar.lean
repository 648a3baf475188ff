import PathContainment.Toml.Value

/-!
# Numbers, dates and times of a TOML document

A number, a date or a time is a run of letters, digits, signs, points, colons and underscores. `scalar?` tells
which of them a run is, if it is well-formed: numbers have no leading zeros and underscores only between digits,
integers have 64 bits, and dates are dates of the calendar.
-/

namespace PathContainment.Toml

/-- The characters of numbers, dates and times. -/
def isScalarChar (c : Char) : Bool := c.isAlphanum || c = '_' || c = '+' || c = '-' || c = '.' || c = ':'

/-! ### Numbers -/

/-- The digits of a run in which single underscores stand between digits. -/
def digitGroups (isDigit : Char → Bool) : List Char → Option (List Char)
  | [c] => if isDigit c then some [c] else none
  | c :: '_' :: d :: rest =>
    if isDigit c && isDigit d then (digitGroups isDigit (d :: rest)).map (c :: ·) else none
  | c :: rest => if isDigit c then (digitGroups isDigit rest).map (c :: ·) else none
  | [] => none

def isHexDigit (c : Char) : Bool := c.isDigit || ('a' ≤ c && c ≤ 'f') || ('A' ≤ c && c ≤ 'F')

def digitValue (c : Char) : Nat :=
  if c.isDigit then c.toNat - '0'.toNat else c.toLower.toNat - 'a'.toNat + 10

def numeral (base : Nat) (digits : List Char) : Nat := digits.foldl (fun n c => base * n + digitValue c) 0

/-- The number without its sign, and whether that is a minus. -/
def signed : List Char → Bool × List Char
  | '-' :: rest => (true, rest)
  | '+' :: rest => (false, rest)
  | l => (false, l)

/-- The digits of a decimal number without superfluous zeros in front. -/
def decimalDigits (l : List Char) : Option (List Char) := do
  let digits ← digitGroups Char.isDigit l
  if digits.head? = some '0' ∧ digits ≠ ['0'] then none else some digits

/-- The value of an integer that has no more than 64 bits. -/
def fits (n : Int) : Option Value :=
  if Int64.minValue.toInt ≤ n ∧ n ≤ Int64.maxValue.toInt then some (.integer n) else none

def integer? (l : List Char) : Option Value :=
  match l with
  | '0' :: 'x' :: rest => do fits (numeral 16 (← digitGroups isHexDigit rest))
  | '0' :: 'o' :: rest => do fits (numeral 8 (← digitGroups (fun c => '0' ≤ c && c ≤ '7') rest))
  | '0' :: 'b' :: rest => do fits (numeral 2 (← digitGroups (fun c => c = '0' || c = '1') rest))
  | l => do
    let (negative, l) := signed l
    let n := numeral 10 (← decimalDigits l)
    fits (if negative then -(n : Int) else n)

/-- The decimal number `digits * 10 ^ exponent` is nearer to infinity than to the greatest floating-point number. -/
def isTooLarge (digits : List Char) (exponent : Int) : Bool :=
  let digits := digits.dropWhile (· = '0')
  let magnitude := digits.length + exponent
  if digits.isEmpty || magnitude < 300 then false
  else if 320 < magnitude then true
  else
    let bound := (1 <<< 1024) - (1 <<< 970)
    if 0 ≤ exponent then bound ≤ numeral 10 digits * Nat.pow 10 exponent.toNat
    else bound * Nat.pow 10 (-exponent).toNat ≤ numeral 10 digits

/-- The exponent of a floating-point number, after the letter in front of it. -/
def exponent? (l : List Char) : Option Int := do
  let (negative, l) := signed l
  let n := numeral 10 (← digitGroups Char.isDigit l)
  return if negative then -(n : Int) else n

def float? (l : List Char) : Option Value := do
  let (negative, rest) := signed l
  if rest = "inf".toList ∨ rest = "nan".toList then return .float (String.ofList l)
  let mantissa := rest.takeWhile fun c => c ≠ 'e' && c ≠ 'E'
  let exponent ← match rest.drop mantissa.length with
    | [] => some none
    | _ :: e => (exponent? e).map some
  let whole ← decimalDigits (mantissa.takeWhile (· ≠ '.'))
  let fraction ← match mantissa.dropWhile (· ≠ '.') with
    | [] => some none
    | _ :: f => (digitGroups Char.isDigit f).map some
  if exponent.isNone ∧ fraction.isNone then none
  let fraction := fraction.getD []
  if !negative ∧ isTooLarge (whole ++ fraction) (exponent.getD 0 - fraction.length) then none
  return .float (String.ofList l)

/-! ### Dates and times -/

/-- Reads a number of two digits that lies between two bounds. -/
def twoDigits (low high : Nat) : List Char → Option (Nat × List Char)
  | a :: b :: rest =>
    let n := numeral 10 [a, b]
    if a.isDigit && b.isDigit && low ≤ n && n ≤ high then some (n, rest) else none
  | _ => none

def after (c : Char) : List Char → Option (List Char)
  | d :: rest => if c = d then some rest else none
  | [] => none

def daysOfMonth (year month : Nat) : Nat :=
  if month = 2 then if year % 4 = 0 ∧ (year % 100 ≠ 0 ∨ year % 400 = 0) then 29 else 28
  else if month ∈ [4, 6, 9, 11] then 30 else 31

/-- The text after a date. -/
def afterDate (l : List Char) : Option (List Char) := do
  let (century, l) ← twoDigits 0 99 l
  let (yearOfCentury, l) ← twoDigits 0 99 l
  let (month, l) ← twoDigits 1 12 (← after '-' l)
  let (_, l) ← twoDigits 1 (daysOfMonth (100 * century + yearOfCentury) month) (← after '-' l)
  return l

/-- The text after a time of the day, which may have a leap second and a fraction of a second. -/
def afterTime (l : List Char) : Option (List Char) := do
  let (_, l) ← twoDigits 0 23 l
  let (_, l) ← twoDigits 0 59 (← after ':' l)
  let (_, l) ← twoDigits 0 60 (← after ':' l)
  match l with
  | '.' :: c :: rest => if c.isDigit then some (rest.dropWhile Char.isDigit) else none
  | '.' :: [] => none
  | l => some l

/-- The text after hours and minutes. -/
def afterMinutes (l : List Char) : Option (List Char) := do
  let (_, l) ← twoDigits 0 23 l
  let (_, l) ← twoDigits 0 59 (← after ':' l)
  return l

/-- The text is empty or the offset of a time zone. -/
def isOffset : List Char → Bool
  | [] | ['Z'] | ['z'] => true
  | c :: rest => (c = '+' || c = '-') && afterMinutes rest = some []

/-- The text is a date, a date and a time with a letter or a blank between them, or a time. -/
def isMoment (l : List Char) : Bool :=
  match afterDate l with
  | some [] => true
  | some (c :: rest) => (c = 'T' || c = 't' || c = ' ') && (afterTime rest).any isOffset
  | none => afterTime l = some []

/-- The number, date or time that a run of characters is. -/
def scalar? (l : List Char) : Option Value :=
  if isMoment l then some (.moment (String.ofList l)) else (integer? l).or (float? l)

end PathContainment.Toml
