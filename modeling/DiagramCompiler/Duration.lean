import DiagramCompiler.Text.Numeral
import DiagramCompiler.Text.Decimal

/-! Lengths of time.
A duration is a whole number of nanoseconds. It is shown in the largest unit of which it holds at
least one, with two decimals; rounding never moves it to the next unit. -/
namespace DiagramCompiler

/-- A length of time in nanoseconds. -/
structure Duration where
  nanoseconds : Nat
  deriving DecidableEq, Repr, Inhabited

namespace Duration

def zero : Duration := ⟨0⟩

def ofMilliseconds (n : Nat) : Duration := ⟨n * 1000000⟩

def ofSeconds (n : Nat) : Duration := ⟨n * 1000000000⟩

def milliseconds (d : Duration) : Nat := d.nanoseconds / 1000000

def seconds (d : Duration) : Nat := d.nanoseconds / 1000000000

instance : Add Duration := ⟨fun a b => ⟨a.nanoseconds + b.nanoseconds⟩⟩

/-- The time from `b` to `a`, nothing when `a` is not later. -/
instance : Sub Duration := ⟨fun a b => ⟨a.nanoseconds - b.nanoseconds⟩⟩

instance : LT Duration := ⟨fun a b => a.nanoseconds < b.nanoseconds⟩

instance (a b : Duration) : Decidable (a < b) :=
  inferInstanceAs (Decidable (a.nanoseconds < b.nanoseconds))

@[simp] theorem lt_iff (a b : Duration) : a < b ↔ a.nanoseconds < b.nanoseconds := Iff.rfl

def hundredths (n : Nat) : String :=
  let fraction := n % 100
  String.ofList (Numeral.decimal (n / 100) ++ '.' ::
    (if fraction < 10 then '0' :: Numeral.decimal fraction else Numeral.decimal fraction))

def unit (d : Duration) : String × Nat :=
  if 1000000000 ≤ d.nanoseconds then ("s", 1000000000)
  else if 1000000 ≤ d.nanoseconds then ("ms", 1000000)
  else if 1000 ≤ d.nanoseconds then ("µs", 1000)
  else ("ns", 1)

/-- Two decimals in the largest fitting unit, a half going to the even neighbour. -/
def text (d : Duration) : String :=
  let (name, length) := d.unit
  hundredths (Decimal.roundHalfEven (d.nanoseconds * 100) length) ++ name

def secondsText (d : Duration) : String :=
  let micros := Decimal.roundHalfEven d.nanoseconds 1000
  let fraction := Numeral.decimal (micros % 1000000)
  String.ofList (Numeral.decimal (micros / 1000000) ++ '.' ::
    (List.replicate (6 - fraction.length) '0' ++ fraction))

end Duration
end DiagramCompiler
