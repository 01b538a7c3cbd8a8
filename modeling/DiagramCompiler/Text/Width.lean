import DiagramCompiler.Text.Ligature

/-! Display widths.
A character takes two columns of a display when its property East_Asian_Width is wide or fullwidth,
none when it is shown with its neighbours, and one otherwise. In a text the width of a character
depends on what follows: on selectors of text, of emoji and of full width, and on the ligatures and
sequences of emoji that it is part of. So widths are summed from the end. -/
namespace DiagramCompiler
namespace Text

def wideRanges : Ranges :=
  [(0x1100, 0x115F), (0x17A4, 0x17A4), (0x231A, 0x231B), (0x2329, 0x232A), (0x23E9, 0x23EC),
    (0x23F0, 0x23F0), (0x23F3, 0x23F3), (0x25FD, 0x25FE), (0x2614, 0x2615), (0x2630, 0x2637),
    (0x2648, 0x2653), (0x267F, 0x267F), (0x268A, 0x268F), (0x2693, 0x2693), (0x26A1, 0x26A1),
    (0x26AA, 0x26AB), (0x26BD, 0x26BE), (0x26C4, 0x26C5), (0x26CE, 0x26CE), (0x26D4, 0x26D4),
    (0x26EA, 0x26EA), (0x26F2, 0x26F3), (0x26F5, 0x26F5), (0x26FA, 0x26FA), (0x26FD, 0x26FD),
    (0x2705, 0x2705), (0x270A, 0x270B), (0x2728, 0x2728), (0x274C, 0x274C), (0x274E, 0x274E),
    (0x2753, 0x2755), (0x2757, 0x2757), (0x2795, 0x2797), (0x27B0, 0x27B0), (0x27BF, 0x27BF),
    (0x2B1B, 0x2B1C), (0x2B50, 0x2B50), (0x2B55, 0x2B55), (0x2E80, 0x2E99), (0x2E9B, 0x2EF3),
    (0x2F00, 0x2FD5), (0x2FF0, 0x303E), (0x3041, 0x3096), (0x3099, 0x30FF), (0x3105, 0x312F),
    (0x3131, 0x318E), (0x3190, 0x31E5), (0x31EF, 0x321E), (0x3220, 0x3247), (0x3250, 0xA48C),
    (0xA490, 0xA4C6), (0xA960, 0xA97C), (0xAC00, 0xD7A3), (0xF900, 0xFAFF), (0xFE10, 0xFE19),
    (0xFE30, 0xFE52), (0xFE54, 0xFE66), (0xFE68, 0xFE6B), (0xFF01, 0xFF60), (0xFFE0, 0xFFE6),
    (0x16FE0, 0x16FE4), (0x16FF0, 0x16FF6), (0x17000, 0x18CDA), (0x18CFF, 0x191D2),
    (0x1AFF0, 0x1AFF3), (0x1AFF5, 0x1AFFB), (0x1AFFD, 0x1AFFE), (0x1B000, 0x1B128),
    (0x1B132, 0x1B132), (0x1B150, 0x1B152), (0x1B155, 0x1B155), (0x1B164, 0x1B168),
    (0x1B170, 0x1B2FB), (0x1D300, 0x1D356), (0x1D360, 0x1D376), (0x1F004, 0x1F004),
    (0x1F0CF, 0x1F0CF), (0x1F18E, 0x1F18E), (0x1F191, 0x1F19A), (0x1F1AE, 0x1F1AE),
    (0x1F200, 0x1F202), (0x1F210, 0x1F23B), (0x1F240, 0x1F248), (0x1F250, 0x1F251),
    (0x1F260, 0x1F265), (0x1F300, 0x1F320), (0x1F32D, 0x1F335), (0x1F337, 0x1F37C),
    (0x1F37E, 0x1F393), (0x1F3A0, 0x1F3CA), (0x1F3CF, 0x1F3D3), (0x1F3E0, 0x1F3F0),
    (0x1F3F4, 0x1F3F4), (0x1F3F8, 0x1F43E), (0x1F440, 0x1F440), (0x1F442, 0x1F4FC),
    (0x1F4FF, 0x1F53D), (0x1F54B, 0x1F54E), (0x1F550, 0x1F567), (0x1F57A, 0x1F57A),
    (0x1F595, 0x1F596), (0x1F5A4, 0x1F5A4), (0x1F5FB, 0x1F64F), (0x1F680, 0x1F6C5),
    (0x1F6CC, 0x1F6CC), (0x1F6D0, 0x1F6D2), (0x1F6D5, 0x1F6D9), (0x1F6DC, 0x1F6DF),
    (0x1F6EB, 0x1F6EC), (0x1F6F4, 0x1F6FC), (0x1F7DA, 0x1F7DA), (0x1F7E0, 0x1F7EB),
    (0x1F7F0, 0x1F7F0), (0x1F90C, 0x1F93A), (0x1F93C, 0x1F945), (0x1F947, 0x1F9FF),
    (0x1FA70, 0x1FA7C), (0x1FA80, 0x1FA8B), (0x1FA8D, 0x1FAC6), (0x1FAC8, 0x1FAC8),
    (0x1FACC, 0x1FADD), (0x1FADF, 0x1FAEB), (0x1FAEF, 0x1FAFA), (0x20000, 0x2FFFD),
    (0x30000, 0x3FFFD)]

def charWidth (c : Char) : Nat :=
  if c.toNat ≤ 0xA0 then 1
  else if isCombining c then 0
  else if c.toNat = 0x17D8 then 3
  else if inRanges wideRanges c then 2
  else 1

/-- What the characters at the start of a text are the end of, if more can come before them. -/
inductive Opening where
  | closed
  | ligature (l : Ligature)
  | emoji (t : EmojiTail)
  deriving DecidableEq, Repr

/-- How a selector wants the character before it to be shown. -/
inductive Presentation where
  | text
  | emoji
  /-- As wide as an ideograph. -/
  | fullwidth
  deriving DecidableEq, Repr

def Presentation.ofChar? (c : Char) : Option Presentation :=
  if c = textSelector then some .text
  else if c = emojiSelector then some .emoji
  else if c = fullwidthSelector then some .fullwidth
  else none

/-- What the start of a text does to the width of a character before it. -/
structure Start where
  opening : Opening
  /-- What the selectors at the start select. Before a ligature there can be several. -/
  selected : List Presentation
  deriving DecidableEq, Repr

def Opening.ofChar (c : Char) : Opening :=
  match Ligature.ofChar? c, EmojiTail.ofChar? c with
  | some l, _ => .ligature l
  | none, some t => .emoji t
  | none, none => .closed

/-- The width of a character before an opening, and what is open with it. -/
def Opening.extend (o : Opening) (c : Char) : Int × Opening :=
  let alone := ((charWidth c : Int), Opening.ofChar c)
  match o with
  | .ligature l =>
    match l.extend c with
    | some (width, some l) => (width, .ligature l)
    | some (width, none) => (width, .closed)
    | none => alone
  | .emoji t =>
    match t.extend c with
    | some (width, t) => (width, .emoji t)
    | none => alone
  | .closed => alone

namespace Start

def closed : Start := ⟨.closed, []⟩

def select (s : Start) (p : Presentation) : Start :=
  match s.opening with
  | .ligature l => if l.takesSelector then ⟨s.opening, s.selected.insert p⟩ else ⟨.closed, [p]⟩
  | .emoji t => if p = .emoji ∧ t.takesSelector then ⟨s.opening, [p]⟩ else ⟨.closed, [p]⟩
  | .closed => ⟨.closed, [p]⟩

def withoutEmoji (s : Start) : Start :=
  if .emoji ∈ s.selected then
    match s.opening with
    | .ligature _ => ⟨s.opening, s.selected.erase .emoji⟩
    | _ => closed
  else s

/-- The width of a character before a start that selects no emoji, and the start with it. -/
def extendText (s : Start) (c : Char) : Int × Start :=
  if c.toNat ≤ 0xA0 then (1, closed)
  else
    match Presentation.ofChar? c with
    | some p => (0, s.select p)
    | none =>
      if .fullwidth ∈ s.selected ∧ isQuotationMark c then (2, closed)
      else if .text ∈ s.selected ∧ narrowsAsText c then (1, closed)
      else
        let (width, opening) := s.opening.extend c
        (width, ⟨opening, []⟩)

/-- The width of a character before a text, and how the text starts with it. -/
def extend (s : Start) (c : Char) : Int × Start :=
  if .emoji ∈ s.selected ∧ hasVariants c then
    let tied := match s.opening with
      | .emoji _ => true
      | _ => false
    (if tied then 0 else 2, ⟨.emoji .emoji, []⟩)
  else s.withoutEmoji.extendText c

end Start

def measure : List Char → Int × Start
  | [] => (0, .closed)
  | c :: cs =>
    let (width, start) := measure cs
    let (added, start) := start.extend c
    (width + added, start)

def displayWidth (cs : List Char) : Nat := (measure cs).1.toNat

@[simp] theorem displayWidth_nil : displayWidth [] = 0 := rfl

end Text
end DiagramCompiler
