import Tapecraft.Text.Integer
import Tapecraft.Toml.Text
import Tapecraft.Toml.Value

/-! # Numbers and date-times

Integers fit in 64 bits and may be written in four bases. A float has a fraction or an
exponent, or is one of two words; a positive float beyond the greatest double is refused.
A date-time is a date, a time of day, or both with an optional offset, and each part has
to be in its range.
-/
namespace Tapecraft.Toml.Reader

/-- One digit or more, with single underscores between digits. -/
def digits (isDigit : Char → Bool) : Reader (List Char) := do
  let first ← one isDigit
  return first :: (← many (one isDigit <|> (do char '_'; one isDigit)))

def sign : Reader Bool := do
  return (← optional (one fun c => c = '+' || c = '-')) == some '-'

/-- The digits of a decimal number, which begin with a zero only when there is no other. -/
def wholeDigits : Reader (List Char) := do
  match ← peek? with
  | some '0' => return [← one (· == '0')]
  | _ => digits Char.isDigit

def valueOf (base : Nat) (ds : List Char) : Nat := ds.foldl (fun n c => base * n + hexValue c) 0

def decimalInteger : Reader Value := do
  let negative ← sign
  let n := valueOf 10 (← wholeDigits)
  if negative then
    if n ≤ Integer.maxSigned + 1 then return .integer (-n) else failure
  else
    if n ≤ Integer.maxSigned then return .integer n else failure

def basedInteger (mark : String) (base : Nat) (isDigit : Char → Bool) : Reader Value := do
  literal mark
  let n := valueOf base (← digits isDigit)
  if n ≤ Integer.maxSigned then return .integer n else failure

def integer : Reader Value := fun cs =>
  match cs with
  | '0' :: 'x' :: _ => basedInteger "0x" 16 isHexDigit cs
  | '0' :: 'o' :: _ => basedInteger "0o" 8 (fun c => '0' ≤ c && c ≤ '7') cs
  | '0' :: 'b' :: _ => basedInteger "0b" 2 (fun c => c = '0' || c = '1') cs
  | _ => decimalInteger cs

/-- The least number that a double rounds to infinity. -/
def overflowBound : Nat := Nat.pow 2 1024 - Nat.pow 2 970

/-- Whether `mantissa * 10 ^ exponent` rounds to infinity. Numbers of clearly fewer or
more than 309 digits are decided by their size alone. -/
def overflows (mantissa : Nat) (exponent : Int) : Bool :=
  let size : Int := (Nat.toDigits 10 mantissa).length + exponent
  if mantissa = 0 ∨ size ≤ 308 then false
  else if 310 ≤ size then true
  else if 0 ≤ exponent then overflowBound ≤ mantissa * Nat.pow 10 exponent.toNat
  else overflowBound * Nat.pow 10 (-exponent).toNat ≤ mantissa

def exponent : Reader Int := do
  let _ ← one fun c => c = 'e' || c = 'E'
  let negative ← sign
  let n := valueOf 10 (← digits Char.isDigit)
  return if negative then -n else n

def decimalFloat : Reader Value := do
  let negative ← sign
  let whole ← wholeDigits
  let fraction ← optional (do char '.'; digits Char.isDigit)
  let power ← optional exponent
  if fraction.isNone && power.isNone then failure
  let places := fraction.getD []
  if !negative && overflows (valueOf 10 (whole ++ places)) (power.getD 0 - places.length) then
    failure
  return .float

def wordFloat : Reader Value := do
  let _ ← sign
  literal "inf" <|> literal "nan"
  return .float

def ranged (count least greatest : Nat) : Reader Nat := do
  let n := valueOf 10 (← exactly Char.isDigit count)
  if least ≤ n && n ≤ greatest then return n else failure

def daysInMonth (year month : Nat) : Nat :=
  if month = 2 then
    if year % 4 = 0 ∧ (year % 100 ≠ 0 ∨ year % 400 = 0) then 29 else 28
  else if month = 4 ∨ month = 6 ∨ month = 9 ∨ month = 11 then 30
  else 31

def date : Reader Unit := do
  let year ← ranged 4 0 9999
  char '-'
  let month ← ranged 2 1 12
  char '-'
  let _ ← ranged 2 1 (daysInMonth year month)

/-- A time of day, in which a second may be a leap second. -/
def time : Reader Unit := do
  let _ ← ranged 2 0 23
  char ':'
  let _ ← ranged 2 0 59
  char ':'
  let _ ← ranged 2 0 60
  let _ ← optional do
    char '.'
    let _ ← one Char.isDigit
    many (one Char.isDigit)

def offset : Reader Unit :=
  (do let _ ← one fun c => c = 'Z' || c = 'z') <|>
    (do
      let _ ← one fun c => c = '+' || c = '-'
      let _ ← ranged 2 0 23
      char ':'
      let _ ← ranged 2 0 59)

def datetime : Reader Value :=
  (do
    date
    let _ ← optional do
      let _ ← one fun c => c = 'T' || c = 't' || c = ' '
      time
      optional offset
    return .datetime) <|>
    (do
      time
      return .datetime)

def number : Reader Value := datetime <|> decimalFloat <|> wordFloat <|> integer

end Tapecraft.Toml.Reader
