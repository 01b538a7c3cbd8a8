import DiagramCompiler.Text.Letter

/-! Decimal numbers in text.
A decimal number is an optional sign and either digits with an optional point and an optional
exponent, or a spelling of infinity or of the undefined value. Only two questions are asked of one:
whether the double nearest to it is zero, and how many nanoseconds a number of seconds is. -/
namespace DiagramCompiler
namespace Decimal

/-- A decimal number as written: `mantissa * 10 ^ exponent`, infinite, or undefined. -/
inductive Value where
  | finite (negative : Bool) (mantissa : Nat) (exponent : Int)
  | infinite (negative : Bool)
  | undefined
  deriving DecidableEq, Repr

def isDigit (c : Char) : Bool := '0' ≤ c && c ≤ '9'

def digitsValue (cs : List Char) : Nat :=
  cs.foldl (fun n c => n * 10 + (c.toNat - 48)) 0

/-- Splits an optional sign off; the flag tells whether it was a minus. -/
def splitSign : List Char → Bool × List Char
  | '-' :: cs => (true, cs)
  | '+' :: cs => (false, cs)
  | cs => (false, cs)

/-- The exponent part: empty, or the letter e, an optional sign and one or more digits. -/
def parseExponent : List Char → Option Int
  | [] => some 0
  | c :: cs =>
    if Text.lower c = 'e' then
      let (negative, ds) := splitSign cs
      if ds ≠ [] ∧ ds.all isDigit then
        let n := Int.ofNat (digitsValue ds)
        some (if negative then -n else n)
      else none
    else none

def parseDigits (negative : Bool) (cs : List Char) : Option Value :=
  let whole := cs.takeWhile isDigit
  let rest := cs.dropWhile isDigit
  let (fraction, rest) := match rest with
    | '.' :: more => (more.takeWhile isDigit, more.dropWhile isDigit)
    | _ => ([], rest)
  if whole = [] ∧ fraction = [] then none
  else (parseExponent rest).map fun e =>
    .finite negative (digitsValue (whole ++ fraction)) (e - fraction.length)

def parse (cs : List Char) : Option Value :=
  let (negative, rest) := splitSign cs
  let word := rest.map Text.lower
  if word = "inf".toList ∨ word = "infinity".toList then some (.infinite negative)
  else if word = "nan".toList then some .undefined
  else parseDigits negative rest

def magnitude (mantissa : Nat) (exponent : Int) : Int :=
  (Nat.toDigits 10 mantissa).length + exponent

/-- Whether the nearest double is zero. The smallest positive double is `2 ^ -1074`; half of it
and all below become zero. -/
def Value.isZero : Value → Bool
  | .infinite _ => false
  | .undefined => false
  | .finite _ mantissa exponent =>
    if mantissa = 0 then true
    else if magnitude mantissa exponent < -400 then true
    else if 400 < magnitude mantissa exponent then false
    else match exponent with
      | .ofNat _ => false
      | .negSucc n => mantissa <<< 1075 ≤ Nat.pow 10 (n + 1)

/-- `numerator / denominator` to the nearest integer, a half to the even neighbour. -/
def roundHalfEven (numerator denominator : Nat) : Nat :=
  let quotient := numerator / denominator
  let twice := 2 * (numerator % denominator)
  if twice < denominator then quotient
  else if denominator < twice then quotient + 1
  else quotient + quotient % 2

/-- The nanoseconds in a number of seconds, which must be finite, not negative and, as the nearest
double, below `2 ^ 64`. -/
def Value.nanoseconds? (value : Value) : Option Nat :=
  match value with
  | .infinite _ => none
  | .undefined => none
  | .finite negative mantissa exponent =>
    if value.isZero then some 0
    else if negative then none
    else if 400 < magnitude mantissa exponent then none
    else
      let (numerator, denominator) := match exponent with
        | .ofNat n => (mantissa * Nat.pow 10 n, 1)
        | .negSucc n => (mantissa, Nat.pow 10 (n + 1))
      if numerator < (UInt64.size - 1024) * denominator then
        some (roundHalfEven (numerator * 1000000000) denominator)
      else none

end Decimal
end DiagramCompiler
