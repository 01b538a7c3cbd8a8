/-! Integers in text.
A numeral is an optional sign and one or more digits; leading zeros are allowed. It is read from
left to right, and the first fault found is the one reported: at each character, not being a digit
comes before being too large. -/
namespace DiagramCompiler
namespace Numeral

/-- Why a text is not an integer of the wanted range. -/
inductive Fault where
  | empty
  | invalidDigit
  | tooLarge
  | tooSmall
  deriving DecidableEq, Repr

def Fault.message : Fault → String
  | .empty => "cannot parse integer from empty string"
  | .invalidDigit => "invalid digit found in string"
  | .tooLarge => "number too large to fit in target type"
  | .tooSmall => "number too small to fit in target type"

/-- The value of a digit of either case, if it is below the radix. -/
def digit? (radix : Nat) (c : Char) : Option Nat :=
  let value : Option Nat :=
    if '0' ≤ c ∧ c ≤ '9' then some (c.toNat - 48)
    else if 'a' ≤ c ∧ c ≤ 'z' then some (c.toNat - 87)
    else if 'A' ≤ c ∧ c ≤ 'Z' then some (c.toNat - 55)
    else none
  value.filter (· < radix)

/-- Continues a numeral whose digits so far have the value `sum`; values stay below `bound`. -/
def accumulate (radix bound : Nat) (outside : Fault) : Nat → List Char → Except Fault Nat
  | sum, [] => .ok sum
  | sum, c :: cs =>
    match digit? radix c with
    | none => .error .invalidDigit
    | some d =>
      let next := sum * radix + d
      if next < bound then accumulate radix bound outside next cs else .error outside

/-- A natural number below `bound`, with an optional plus sign. -/
def unsigned (radix bound : Nat) : List Char → Except Fault Nat
  | [] => .error .empty
  | [c] => if c = '+' then .error .invalidDigit else accumulate radix bound .tooLarge 0 [c]
  | c :: cs => accumulate radix bound .tooLarge 0 (if c = '+' then cs else c :: cs)

/-- An integer from `-bound` to `bound - 1`, with an optional sign. -/
def signed (bound : Nat) : List Char → Except Fault Int
  | [] => .error .empty
  | [c] => (accumulate 10 bound .tooLarge 0 [c]).map Int.ofNat
  | c :: cs =>
    if c = '-' then (accumulate 10 (bound + 1) .tooSmall 0 cs).map fun n => -Int.ofNat n
    else (accumulate 10 bound .tooLarge 0 (if c = '+' then cs else c :: cs)).map Int.ofNat

def word64 (cs : List Char) : Except Fault Nat := unsigned 10 UInt64.size cs

def word32 (cs : List Char) : Except Fault Nat := unsigned 10 UInt32.size cs

def int32 (cs : List Char) : Except Fault Int := signed 2147483648 cs

/-- The decimal digits of a natural number, most significant first. -/
def decimal (n : Nat) : List Char := Nat.toDigits 10 n

def text (n : Nat) : String := String.ofList (decimal n)

def intText (i : Int) : String :=
  match i with
  | .ofNat n => text n
  | .negSucc n => String.ofList ('-' :: decimal (n + 1))

def hexText (n : Nat) : String := String.ofList (Nat.toDigits 16 n)

end Numeral
end DiagramCompiler
