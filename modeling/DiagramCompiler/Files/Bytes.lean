/-! Contents of files.
A file holds bytes; they are a text when they are valid UTF-8. -/
namespace DiagramCompiler

abbrev Bytes := List UInt8

namespace Bytes

def text? (bytes : Bytes) : Option String := String.fromUTF8? ⟨bytes.toArray⟩

def ofText (s : String) : Bytes := s.toUTF8.data.toList

/-- The ranges of the bytes that may follow the first byte of a character; there are none after a
byte that starts no character. -/
def followers (first : Nat) : Option (List (Nat × Nat)) :=
  if first < 0x80 then some []
  else if first < 0xC2 then none
  else if first < 0xE0 then some [(0x80, 0xBF)]
  else if first = 0xE0 then some [(0xA0, 0xBF), (0x80, 0xBF)]
  else if first = 0xED then some [(0x80, 0x9F), (0x80, 0xBF)]
  else if first < 0xF0 then some [(0x80, 0xBF), (0x80, 0xBF)]
  else if first = 0xF0 then some [(0x90, 0xBF), (0x80, 0xBF), (0x80, 0xBF)]
  else if first < 0xF4 then some [(0x80, 0xBF), (0x80, 0xBF), (0x80, 0xBF)]
  else if first = 0xF4 then some [(0x80, 0x8F), (0x80, 0xBF), (0x80, 0xBF)]
  else none

/-- The number of bytes that lie one by one in some ranges. -/
def matching : List (Nat × Nat) → Bytes → Nat
  | r :: rs, b :: bs => if r.1 ≤ b.toNat ∧ b.toNat ≤ r.2 then matching rs bs + 1 else 0
  | _, _ => 0

/-- The length of the character or of the broken character at the start of some bytes, and whether
it is whole. -/
def firstLength (first : UInt8) (rest : Bytes) : Nat × Bool :=
  match followers first.toNat with
  | none => (1, false)
  | some ranges => (matching ranges rest + 1, matching ranges rest = ranges.length)

def replacement : Char := Char.ofNat 0xFFFD

/-- The characters of some bytes; what is broken becomes a mark. -/
def lossy (bytes : Bytes) : List Char :=
  match bytes with
  | [] => []
  | b :: bs =>
    let (length, whole) := firstLength b bs
    let rest := lossy (bs.drop (length - 1))
    if whole then ((text? (b :: bs.take (length - 1))).getD "").toList ++ rest
    else replacement :: rest
termination_by bytes.length
decreasing_by
  simp only [List.length_drop, List.length_cons]
  omega

/-- The text of some bytes with a mark in the place of what is broken. -/
def lossyText (bytes : Bytes) : String := String.ofList (lossy bytes)

end Bytes

/-- Why an access to a file failed. -/
inductive FileFault where
  | notFound
  | wouldBlock
  | alreadyExists
  | notDirectory
  | isDirectory
  | inputOutput
  | noSpace
  | nameTooLong
  /-- A name holds the byte that ends names. -/
  | endOfName
  | notText
  deriving DecidableEq, Repr

def FileFault.message : FileFault → String
  | .notFound => "No such file or directory (os error 2)"
  | .wouldBlock => "Resource temporarily unavailable (os error 11)"
  | .alreadyExists => "File exists (os error 17)"
  | .notDirectory => "Not a directory (os error 20)"
  | .isDirectory => "Is a directory (os error 21)"
  | .inputOutput => "Input/output error (os error 5)"
  | .noSpace => "No space left on device (os error 28)"
  | .nameTooLong => "File name too long (os error 36)"
  | .endOfName => "file name contained an unexpected NUL byte"
  | .notText => "stream did not contain valid UTF-8"

end DiagramCompiler
