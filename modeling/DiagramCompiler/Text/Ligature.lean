import DiagramCompiler.Text.Combining
import DiagramCompiler.Text.Emoji

/-! Ligatures.
Some letters merge with letters before them, so that both take the columns of one. A ligature is
read from its end: it is open as long as characters before it may belong to it. -/
namespace DiagramCompiler
namespace Text

def isAlef (c : Char) : Bool :=
  inRanges [(0x0622, 0x0623), (0x0625, 0x0625), (0x0627, 0x0627), (0x0671, 0x0673),
    (0x0675, 0x0675), (0x0773, 0x0774), (0x0870, 0x0882)] c

def isLam (c : Char) : Bool :=
  inRanges [(0x0644, 0x0644), (0x06B5, 0x06B8), (0x076A, 0x076A), (0x08A6, 0x08A6),
    (0x08C7, 0x08C7)] c

def isTifinagh (c : Char) : Bool := inRanges [(0x2D31, 0x2D65), (0x2D6F, 0x2D6F)] c

def isSubjoinable (c : Char) : Bool :=
  inRanges [(0x1780, 0x1782), (0x1784, 0x1787), (0x1789, 0x178C), (0x178E, 0x1793),
    (0x1795, 0x1798), (0x179B, 0x179D), (0x17A0, 0x17A0), (0x17A2, 0x17A2), (0x17A7, 0x17A7),
    (0x17AB, 0x17AC), (0x17AF, 0x17AF)] c

def isIgnorableMark (c : Char) : Bool :=
  inRanges [(0x034F, 0x034F), (0x17B4, 0x17B5), (0x180B, 0x180D), (0x180F, 0x180F),
    (0xFE00, 0xFE0F), (0xE0100, 0xE01EF)] c

/-- The end of a ligature that is open. Where a joiner is needed, it is known whether there was
one. -/
inductive Ligature where
  /-- Arabic alef, which merges with a lam before it. -/
  | alef
  /-- Hebrew lamed, which a joiner merges with an alef. -/
  | lamed (joined : Bool)
  /-- Buginese ya, which a joiner merges with the vowel i. -/
  | ya (joined : Bool)
  /-- Buginese i, joiner and ya, which merge with an a. -/
  | vowelYa
  /-- A consonant of Tifinagh, which a joiner of either kind merges with a consonant. -/
  | consonant (joined : Bool)
  /-- The joiner of Tifinagh and a consonant. -/
  | joinedConsonant
  /-- A tone letter of Lisu, which merges with a tone letter of the other kind. -/
  | tone
  /-- Old Turkic i, which a joiner merges with the letter ec. -/
  | orkhon (joined : Bool)
  /-- A letter of Khmer, which is below the letter before it after a coeng. -/
  | subjoined
  /-- The vowel sign e of Kirat Rai, which other vowel signs end in. -/
  | vowelE
  /-- The vowel sign ai of Kirat Rai, which another vowel sign ends in. -/
  | vowelAi
  deriving DecidableEq, Repr

namespace Ligature

def ofChar? (c : Char) : Option Ligature :=
  if c.toNat = 0x05DC then some (.lamed false)
  else if isAlef c then some .alef
  else if isSubjoinable c then some .subjoined
  else if c.toNat = 0x1A10 then some (.ya false)
  else if isTifinagh c then some (.consonant false)
  else if inRanges [(0xA4FC, 0xA4FD)] c then some .tone
  else if c.toNat = 0x10C03 then some (.orkhon false)
  else if c.toNat = 0x16D67 then some .vowelE
  else if c.toNat = 0x16D68 then some .vowelAi
  else none

def takesSelector : Ligature → Bool
  | .vowelE | .vowelAi => false
  | _ => true

def takesJoiner : Ligature → Bool
  | .alef | .vowelE | .vowelAi => false
  | _ => true

def join : Ligature → Ligature
  | .lamed _ => .lamed true
  | .ya _ => .ya true
  | .consonant _ => .consonant true
  | .orkhon _ => .orkhon true
  | l => l

/-- What a letter before a ligature adds to the width, and the ligature if it is still open. -/
def extendLetter (l : Ligature) (c : Char) : Option (Int × Option Ligature) :=
  match l with
  | .alef =>
    if isLam c then some (0, none) else if isMark c then some (0, some .alef) else none
  | .lamed joined => if joined ∧ c.toNat = 0x05D0 then some (0, none) else none
  | .ya joined => if joined ∧ c.toNat = 0x1A17 then some (0, some .vowelYa) else none
  | .vowelYa => if c.toNat = 0x1A15 then some (0, none) else none
  | .consonant joined =>
    if c.toNat = 0x2D7F then some (1, some .joinedConsonant)
    else if joined ∧ isTifinagh c then some (0, none)
    else none
  | .joinedConsonant => if isTifinagh c then some (-1, none) else none
  | .tone => if inRanges [(0xA4F8, 0xA4FB)] c then some (0, none) else none
  | .orkhon joined => if joined ∧ c.toNat = 0x10C32 then some (0, none) else none
  | .subjoined => if c.toNat = 0x17D2 then some (-1, none) else none
  | .vowelE =>
    if c.toNat = 0x16D63 ∨ c.toNat = 0x16D69 then some (0, none)
    else if c.toNat = 0x16D67 then some (0, some .vowelAi)
    else if c.toNat = 0x16D68 then some (1, some .vowelE)
    else none
  | .vowelAi => if c.toNat = 0x16D63 then some (0, none) else none

/-- What a character before a ligature adds to the width, and the ligature if it is still open; the
answer is none if the character is no part of it. -/
def extend (l : Ligature) (c : Char) : Option (Int × Option Ligature) :=
  if l.takesJoiner ∧ c = joiner then some (0, some l.join)
  else if l.takesJoiner ∧ isIgnorableMark c then some (0, some l)
  else l.extendLetter c

end Ligature
end Text
end DiagramCompiler
