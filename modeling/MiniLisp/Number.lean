import MiniLisp.Binary64.Arithmetic
import MiniLisp.Value.Basic

/-!
# Numbers

A numeric argument is an integer of 64 bits or a float. Integers are added, subtracted and
multiplied modulo `2 ^ 64`. As soon as one of two numbers is a float the other is rounded to one,
and the operation or comparison is that of floats.
-/
namespace MiniLisp

inductive Number where
  | integer (n : Int64)
  | float (x : Binary64)

namespace Number

def toFloat : Number → Binary64
  | .integer n => .ofInt n.toInt
  | .float x => x

def toValue : Number → Value
  | .integer n => .integer n
  | .float x => .float x

/-- Applies the operation of integers to two integers, and that of floats otherwise. -/
def combine (onIntegers : Int64 → Int64 → Int64) (onFloats : Binary64 → Binary64 → Binary64) :
    Number → Number → Number
  | .integer m, .integer n => .integer (onIntegers m n)
  | a, b => .float (onFloats a.toFloat b.toFloat)

def add : Number → Number → Number := combine (· + ·) Binary64.add

def sub : Number → Number → Number := combine (· - ·) Binary64.sub

def mul : Number → Number → Number := combine (· * ·) Binary64.mul

/-- The quotient, or nothing for two integers of which the divisor is zero. An integer quotient
is truncated toward zero. -/
def div? : Number → Number → Option Number
  | .integer m, .integer n => if n = 0 then none else some (.integer (m / n))
  | a, b => some (.float (a.toFloat.div b.toFloat))

/-- Compares two numbers; nothing if one of them is not a number of the order. -/
def compare? : Number → Number → Option Ordering
  | .integer m, .integer n => some (compare m.toInt n.toInt)
  | a, b => a.toFloat.compare? b.toFloat

/-- The sum of the numbers, starting at the integer zero. -/
def sum (numbers : List Number) : Number :=
  numbers.foldl add (.integer 0)

/-- The product of the numbers, starting at the integer one. -/
def product (numbers : List Number) : Number :=
  numbers.foldl mul (.integer 1)

end Number

/-- The number that the value is, if it is one. -/
def Value.number? : Value → Option Number
  | .integer n => some (.integer n)
  | .float x => some (.float x)
  | _ => none

end MiniLisp
