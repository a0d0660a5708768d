import PackageSeal.Text.Split
import PackageSeal.Toml.Lexeme
import PackageSeal.Toml.Value

/-!
# Unquoted values

Numbers, truth values, dates and times: the values that are written without quotes or brackets. Each
is one run of characters, except that a blank may stand between a date and a time.
-/

namespace PackageSeal.Toml

/-! ## Digits -/

/-- The digits of a run in which single underscores may stand between digits. -/
private def digitRun? (isDigit : Char → Bool) (cs : List Char) : Option (List Char) :=
  let groups := Text.split '_' cs
  if groups.all fun group => !group.isEmpty && group.all isDigit then some groups.flatten
  else none

/-- The number with the given digits in a base. -/
private def number (base : Nat) (digits : List Char) : Nat :=
  digits.foldl (fun n c => base * n + (Text.hexValue? c).getD 0) 0

/-- The digits of a decimal number, which starts with zero only if it is zero. -/
private def decimalDigits? (cs : List Char) : Option (List Char) :=
  match digitRun? Char.isDigit cs with
  | some ('0' :: _ :: _) => none
  | found => found

/-- A number without its sign, and whether that is a minus. -/
private def unsigned : List Char → Bool × List Char
  | '-' :: rest => (true, rest)
  | '+' :: rest => (false, rest)
  | cs => (false, cs)

/-! ## Numbers -/

/-- The largest integer. -/
def maxInteger : Int := Int64.maxValue.toInt

/-- The smallest integer. -/
def minInteger : Int := Int64.minValue.toInt

private def inRange? (n : Int) : Option Value :=
  if minInteger ≤ n ∧ n ≤ maxInteger then some (.integer n) else none

/-- An integer: decimal with an optional sign, or in a base named by its first two characters. -/
def integer? (cs : List Char) : Option Value :=
  match cs with
  | '0' :: 'x' :: rest =>
    (digitRun? (fun c => (Text.hexValue? c).isSome) rest).bind fun ds => inRange? (number 16 ds)
  | '0' :: 'o' :: rest =>
    (digitRun? (fun c => '0' ≤ c && c ≤ '7') rest).bind fun ds => inRange? (number 8 ds)
  | '0' :: 'b' :: rest =>
    (digitRun? (fun c => c == '0' || c == '1') rest).bind fun ds => inRange? (number 2 ds)
  | _ =>
    let (negative, rest) := unsigned cs
    (decimalDigits? rest).bind fun ds =>
      let n := number 10 ds
      inRange? (if negative then -(n : Int) else n)

/-- Beyond ten to this power, or below its inverse, no decimal is a finite number other than
zero. -/
private def decimalRange : Int := 400

/-- The number `digits * 10 ^ exponent`, if it is finite. -/
private def finite? (digits : List Char) (exponent : Int) : Option Float :=
  let mantissa := number 10 digits
  let magnitude := exponent + (Nat.toDigits 10 mantissa).length
  if mantissa = 0 ∨ magnitude < -decimalRange then some 0.0
  else if magnitude > decimalRange then none
  else
    let x := Float.ofScientific mantissa (exponent < 0) exponent.natAbs
    if x.isFinite then some x else none

/-- A decimal with a fraction, an exponent or both. -/
def fractional? (cs : List Char) : Option Value := do
  let (negative, rest) := unsigned cs
  let isMark (c : Char) := c == 'e' || c == 'E'
  let mantissa := rest.takeWhile fun c => !isMark c
  let whole := mantissa.takeWhile (· != '.')
  let digits ← decimalDigits? whole
  let fraction ←
    match mantissa.dropWhile (· != '.') with
    | [] => some none
    | _ :: places => (digitRun? Char.isDigit places).map some
  let exponent ←
    match rest.dropWhile fun c => !isMark c with
    | [] => some none
    | _ :: power =>
      let (down, power) := unsigned power
      (digitRun? Char.isDigit power).map fun ds =>
        let n := number 10 ds
        some (if down then -(n : Int) else (n : Int))
  if fraction.isNone ∧ exponent.isNone then none
  else
    let places := fraction.getD []
    let x ← finite? (digits ++ places) (exponent.getD 0 - (places.length : Int))
    pure (.float (if negative then -x else x))

/-- An infinity or the number that is none, with an optional sign. -/
def nonFinite? (cs : List Char) : Option Value :=
  let (negative, rest) := unsigned cs
  if rest = ['i', 'n', 'f'] then
    some (.float (if negative then -(1.0 / 0.0) else 1.0 / 0.0))
  else if rest = ['n', 'a', 'n'] then some (.float (0.0 / 0.0))
  else none

/-! ## Dates and times -/

/-- A number of exactly so many digits at the front. -/
private def fixed? (width : Nat) : Reader Nat := fun cs =>
  let front := cs.take width
  if front.length = width ∧ front.all Char.isDigit then some (number 10 front, cs.drop width)
  else none

private def daysOf (year month : Nat) : Nat :=
  let leap := year % 4 = 0 ∧ (year % 100 ≠ 0 ∨ year % 400 = 0)
  if month = 2 then (if leap then 29 else 28)
  else if month = 4 ∨ month = 6 ∨ month = 9 ∨ month = 11 then 30
  else 31

/-- The characters after a date. -/
def afterDate? (cs : List Char) : Option (List Char) := do
  let (year, rest) ← fixed? 4 cs
  let (month, rest) ← match rest with
    | '-' :: rest => fixed? 2 rest
    | _ => none
  let (day, rest) ← match rest with
    | '-' :: rest => fixed? 2 rest
    | _ => none
  if 1 ≤ month ∧ month ≤ 12 ∧ 1 ≤ day ∧ day ≤ daysOf year month then pure rest else none

/-- The characters after hours and minutes. -/
private def afterHourMinute? (cs : List Char) : Option (List Char) := do
  let (hour, rest) ← fixed? 2 cs
  let (minute, rest) ← match rest with
    | ':' :: rest => fixed? 2 rest
    | _ => none
  if hour ≤ 23 ∧ minute ≤ 59 then pure rest else none

/-- The characters after a time of day. Seconds may be missing; they may be the leap second, and may
have a fraction. -/
def afterTime? (cs : List Char) : Option (List Char) := do
  let rest ← afterHourMinute? cs
  match rest with
  | ':' :: rest =>
    let (second, rest) ← fixed? 2 rest
    if second > 60 then none
    else match rest with
      | '.' :: rest =>
        let places := rest.takeWhile Char.isDigit
        if places.isEmpty then none else pure (rest.dropWhile Char.isDigit)
      | rest => pure rest
  | rest => pure rest

/-- Whether the characters are an offset from universal time, or nothing. -/
private def isOffset : List Char → Bool
  | [] => true
  | ['Z'] => true
  | ['z'] => true
  | '+' :: rest => afterHourMinute? rest == some []
  | '-' :: rest => afterHourMinute? rest == some []
  | _ => false

/-- Whether the characters are a time of day, perhaps with an offset. -/
def isZonedTime (cs : List Char) : Bool :=
  match afterTime? cs with
  | some rest => isOffset rest
  | none => false

/-- A date, a time, or a date and a time with a `T` between them. -/
def moment? (cs : List Char) : Option Value :=
  let found :=
    match afterDate? cs with
    | some [] => true
    | some ('T' :: rest) => isZonedTime rest
    | some ('t' :: rest) => isZonedTime rest
    | some _ => false
    | none => afterTime? cs == some []
  if found then some .moment else none

/-! ## Runs -/

/-- A character of an unquoted value. -/
private def isRun (c : Char) : Bool :=
  c.isAlphanum || c == '_' || c == '-' || c == '+' || c == '.' || c == ':'

/-- The value of one run. -/
private def ofRun? (run : List Char) : Option Value :=
  if run = ['t', 'r', 'u', 'e'] then some (.boolean true)
  else if run = ['f', 'a', 'l', 's', 'e'] then some (.boolean false)
  else integer? run <|> fractional? run <|> nonFinite? run <|> moment? run

/-- An unquoted value. After a date, a blank with a digit behind it continues the value with a
time. -/
def unquoted? : Reader Value := fun cs =>
  let run := cs.takeWhile isRun
  let rest := cs.dropWhile isRun
  match afterDate? run, rest with
  | some [], ' ' :: d :: _ =>
    if d.isDigit then
      let time := (rest.drop 1).takeWhile isRun
      if isZonedTime time then some (.moment, (rest.drop 1).dropWhile isRun) else none
    else some (.moment, rest)
  | _, _ => (ofRun? run).map fun value => (value, rest)

end PackageSeal.Toml
