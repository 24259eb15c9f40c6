/-!
The characters of a YAML text with their places. A carriage return followed by a line feed is one
line break, and every break but the two separators of Unicode is read as a line feed.
-/

namespace Devirt

namespace Yaml

/-- `index` counts the bytes before a character, `column` the characters before it in its line. -/
structure Mark where
  index : Nat := 0
  line : Nat := 0
  column : Nat := 0
  deriving DecidableEq

structure Glyph where
  char : Char
  mark : Mark
  deriving DecidableEq

abbrev Text := List Glyph

def isBlank (c : Char) : Bool := c = ' ' || c = '\t'

/-- The breaks that are read as a line feed. -/
def isLineFeed (c : Char) : Bool := c = '\n' || c = '\r' || c = '\x85'

def isBreak (c : Char) : Bool := isLineFeed c || c = '\u2028' || c = '\u2029'

def byteOrderMark : Char := '\ufeff'

/-- Other characters may not occur anywhere, not even in comments. -/
def isAllowed (c : Char) : Bool :=
  c = '\t' || isBreak c || (' ' ≤ c && c ≤ '~') || ('\xa0' ≤ c && c ≤ '\ufffd') ||
    0x10000 ≤ c.toNat

/-- The place after a break of so many bytes. -/
def Mark.nextLine (m : Mark) (bytes : Nat) : Mark :=
  { index := m.index + bytes, line := m.line + 1, column := 0 }

def Mark.nextColumn (m : Mark) (bytes : Nat) : Mark :=
  { m with index := m.index + bytes, column := m.column + 1 }

def glyphs : Mark → List Char → Text
  | _, [] => []
  | m, '\r' :: '\n' :: cs => ⟨'\n', m⟩ :: glyphs (m.nextLine 2) cs
  | m, c :: cs =>
    if isLineFeed c then ⟨'\n', m⟩ :: glyphs (m.nextLine c.utf8Size) cs
    else if isBreak c then ⟨c, m⟩ :: glyphs (m.nextLine c.utf8Size) cs
    else ⟨c, m⟩ :: glyphs (m.nextColumn c.utf8Size) cs

namespace Text

def ofString? (s : String) : Option Text :=
  if s.toList.all isAllowed then some (glyphs {} s.toList) else none

def next? (t : Text) : Option Char := t.head?.map (·.char)

def startsWith (t : Text) (p : Char → Bool) : Bool := t.next?.any p

/-- A blank, a break or the end is next. -/
def atGap (t : Text) : Bool := t.next?.all fun c => isBlank c || isBreak c

def column (t : Text) : Nat := t.head?.elim 0 (·.mark.column)

/-- The mark of three equal characters at the start of a line. -/
def atMarker (t : Text) (c : Char) : Bool :=
  t.column = 0 && (t.take 3).map (·.char) = [c, c, c] && Text.atGap (t.drop 3)

/-- A document starts or ends here. -/
def atDocumentMarker (t : Text) : Bool := t.atMarker '-' || t.atMarker '.'

end Text

end Yaml

end Devirt
