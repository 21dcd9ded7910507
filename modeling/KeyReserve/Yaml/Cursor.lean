/-!
# Places in a text

A reader of documents moves through the characters of a text and knows on which line and in which
column it is, since indentation carries the structure.

## Main definitions

* `Yaml.Cursor`: what is left of a text, with line, column and distance from the start;
* `Yaml.Cursor.skip`: past blanks, comments and line breaks;
* `Yaml.Cursor.atMarker`: a line of dots or dashes that bounds a document.
-/

namespace KeyReserve

namespace Yaml

/-- A line feed, or one of the two separators that also end a line. -/
def isBreak (c : Char) : Bool := c = '\n' || c = '\u2028' || c = '\u2029'

/-- A space or a tab. -/
def isBlank (c : Char) : Bool := c = ' ' || c = '\t'

/-- Whether a text is at its end, a blank or a break. -/
def blankAhead : List Char → Bool
  | [] => true
  | c :: _ => isBlank c || isBreak c

/-- Characters that a document may hold. -/
def isAllowed (c : Char) : Bool :=
  c = '\t' || c = '\n' || c = '\r' || (' ' ≤ c && c ≤ '~') || c = '\u0085' ||
    ('\u00a0' ≤ c && c.val ≤ 0xfffd) || 0x10000 ≤ c.val

/-- The text with a line feed for each other way in which files end a line. -/
def normalizeBreaks : List Char → List Char
  | [] => []
  | '\r' :: '\n' :: cs => '\n' :: normalizeBreaks cs
  | c :: cs => (if c = '\r' || c = '\u0085' then '\n' else c) :: normalizeBreaks cs

/-- A place in a text. -/
structure Cursor where
  /-- The characters from here on. -/
  rest : List Char
  line : Nat
  col : Nat
  /-- The number of characters before here. -/
  pos : Nat
  deriving Inhabited

namespace Cursor

/-- The start of a text. -/
def start (text : List Char) : Cursor := ⟨text, 0, 0, 0⟩

def atEnd (c : Cursor) : Bool := c.rest.isEmpty

/-- Past a number of characters on the same line. -/
def advance (c : Cursor) (n : Nat) : Cursor :=
  ⟨c.rest.drop n, c.line, c.col + n, c.pos + n⟩

/-- Past what separates tokens. Tabs separate only where no indentation is at stake: between
brackets, and behind something on the same line. -/
def skipFrom (inBrackets : Bool) :
    (tabs comment : Bool) → List Char → (line col pos : Nat) → Cursor
  | _, _, [], line, col, pos => ⟨[], line, col, pos⟩
  | tabs, comment, c :: cs, line, col, pos =>
    if isBreak c then skipFrom inBrackets inBrackets false cs (line + 1) 0 (pos + 1)
    else if comment || c = ' ' || (tabs && c = '\t') then
      skipFrom inBrackets tabs comment cs line (col + 1) (pos + 1)
    else if c = '#' then skipFrom inBrackets tabs true cs line (col + 1) (pos + 1)
    else ⟨c :: cs, line, col, pos⟩

/-- Past blanks, comments and breaks between brackets. -/
def skipInBrackets (c : Cursor) : Cursor := skipFrom true true false c.rest c.line c.col c.pos

/-- Past blanks, comments and breaks in block layout, where a tab may stand before the first break
or not. -/
def skip (c : Cursor) (tabs : Bool) : Cursor := skipFrom false tabs false c.rest c.line c.col c.pos

/-- Past blanks on the line. -/
def skipBlanks (c : Cursor) : Cursor := c.advance (c.rest.takeWhile isBlank).length

/-- Whether three equal characters and a blank stand here. -/
def tripled (x : Char) (cs : List Char) : Bool :=
  match cs with
  | a :: b :: c :: r => a = x && b = x && c = x && blankAhead r
  | _ => false

/-- Whether a document begins here. -/
def atDashes (c : Cursor) : Bool := c.col = 0 && tripled '-' c.rest

/-- Whether a document ends here. -/
def atDots (c : Cursor) : Bool := c.col = 0 && tripled '.' c.rest

/-- Whether a document begins or ends here. -/
def atMarker (c : Cursor) : Bool := c.atDashes || c.atDots

/-- Whether a mark stands here with a blank behind it. -/
def atMark (c : Cursor) (x : Char) : Bool :=
  match c.rest with
  | y :: r => y = x && blankAhead r
  | [] => false

/-- Whether a character stands here. -/
def isAt (c : Cursor) (x : Char) : Bool := c.rest.head? = some x

end Cursor

end Yaml

end KeyReserve
