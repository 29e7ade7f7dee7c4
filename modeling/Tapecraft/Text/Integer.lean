/-! # Reading integers of 64 bits

A number is one optional sign and one or more decimal digits. It is read from left to
right, so that of two faults the one further left is reported; at one digit, that it is
no digit comes before that the number grows too far.
-/
namespace Tapecraft

inductive IntegerError where
  | empty
  | invalidDigit
  | tooLarge
  | tooSmall
deriving DecidableEq, Repr

def IntegerError.message : IntegerError → String
  | empty => "cannot parse integer from empty string"
  | invalidDigit => "invalid digit found in string"
  | tooLarge => "number too large to fit in target type"
  | tooSmall => "number too small to fit in target type"

namespace Integer

def maxSigned : Nat := 0x7fffffffffffffff

def maxUnsigned : Nat := 0xffffffffffffffff

/-- Reads digits behind those that make up a value, up to a bound. -/
def digits (bound : Nat) (beyond : IntegerError) : List Char → Nat → Except IntegerError Nat
  | [], value => .ok value
  | c :: rest, value =>
    if c.isDigit then
      let next := 10 * value + (c.toNat - '0'.toNat)
      if bound < next then .error beyond else digits bound beyond rest next
    else .error .invalidDigit

def readSigned : List Char → Except IntegerError Int64
  | [] => .error .empty
  | ['+'] => .error .invalidDigit
  | ['-'] => .error .invalidDigit
  | '+' :: rest => return .ofNat (← digits maxSigned .tooLarge rest 0)
  | '-' :: rest => return .ofInt (-(← digits (maxSigned + 1) .tooSmall rest 0))
  | text => return .ofNat (← digits maxSigned .tooLarge text 0)

def readUnsigned : List Char → Except IntegerError Nat
  | [] => .error .empty
  | ['+'] => .error .invalidDigit
  | '+' :: rest => digits maxUnsigned .tooLarge rest 0
  | text => digits maxUnsigned .tooLarge text 0

end Integer

end Tapecraft
