import KeyReserve.Yaml.Cursor
import KeyReserve.Yaml.Numeral

/-!
# Scalars as they are written

A scalar stands without marks, between quotes or as a block of lines. One that goes over several
lines is folded: a single line break between its parts counts as a space, and of several the first
is left out.

## Main definitions

* `Yaml.Scalar.plain`, `Yaml.Scalar.quoted`, `Yaml.Scalar.block`: each reads a scalar and gives its
  text with the place behind it.
-/

namespace KeyReserve

namespace Yaml

namespace Scalar

/-- What lies between two parts of a scalar. -/
inductive Gap where
  | none
  /-- Blanks on one line, the last first. -/
  | blanks (chars : List Char)
  /-- A line break, or one that has been escaped, and further ones, the last first. -/
  | broken (first : Option Char) (more : List Char)

namespace Gap

/-- Adds a gap to a text, both with the last character first. -/
def onto (text : List Char) : Gap → List Char
  | none => text
  | blanks chars => chars ++ text
  | broken Option.none more => more ++ text
  | broken (some first) more =>
    if first = '\n' then if more.isEmpty then ' ' :: text else more ++ text
    else more ++ first :: text

/-- The gap with another line break. -/
def addBreak (g : Gap) (c : Char) : Gap :=
  match g with
  | broken first more => broken first (c :: more)
  | _ => broken (some c) []

/-- The gap with another blank; behind a line break blanks do not count. -/
def addBlank (g : Gap) (c : Char) : Gap :=
  match g with
  | none => blanks [c]
  | blanks chars => blanks (c :: chars)
  | broken first more => broken first more

def isNone : Gap → Bool
  | none => true
  | _ => false

def isBroken : Gap → Bool
  | broken _ _ => true
  | _ => false

end Gap

/-- Marks that bound the parts of bracketed collections. -/
def isBracketMark (c : Char) : Bool := c = ',' || c = '[' || c = ']' || c = '{' || c = '}'

/-- Marks that have a meaning of their own in front of a scalar. -/
def isIndicator (c : Char) : Bool :=
  isBracketMark c || c = '#' || c = '&' || c = '*' || c = '!' || c = '|' || c = '>' ||
    c = '\'' || c = '"' || c = '%' || c = '@' || c = '\x60'

/-- Whether a scalar without marks can begin like this. -/
def canStart (inBrackets : Bool) : List Char → Bool
  | [] => false
  | c :: cs =>
    if c = '-' then !blankAhead cs
    else if c = '?' || c = ':' then !inBrackets && !blankAhead cs
    else !(isBlank c || isBreak c || isIndicator c)

/-- Reads on in a scalar without marks: its text so far, the last character first, the gap behind
that, and the place behind the text. In block layout the scalar ends at a line that is indented
less than `least`. -/
def plainFrom (inBrackets : Bool) (least : Nat) :
    List Char → (line col pos : Nat) → List Char → Gap → Cursor → Option (List Char × Cursor)
  | [], _, _, _, text, _, stop => some (text, stop)
  | c :: cs, line, col, pos, text, gap, stop =>
    if isBreak c then
      plainFrom inBrackets least cs (line + 1) 0 (pos + 1) text (gap.addBreak c) stop
    else if isBlank c then
      if gap.isBroken && c = '\t' && col < least then none
      else plainFrom inBrackets least cs line (col + 1) (pos + 1) text (gap.addBlank c) stop
    else if gap.isBroken && ((!inBrackets && col < least) ||
        (Cursor.mk (c :: cs) line col pos).atMarker) then
      some (text, stop)
    else if (!gap.isNone && c = '#') || (c = ':' && blankAhead cs) then
      some (text, stop)
    else if inBrackets && c = ':' && (cs.head?.any fun d => d = '?' || isBracketMark d) then
      none
    else if inBrackets && isBracketMark c then
      some (text, stop)
    else
      plainFrom inBrackets least cs line (col + 1) (pos + 1) (c :: gap.onto text) .none
        ⟨cs, line, col + 1, pos + 1⟩

/-- Reads a scalar without marks. -/
def plain (inBrackets : Bool) (least : Nat) (c : Cursor) : Option (String × Cursor) :=
  if canStart inBrackets c.rest then
    (plainFrom inBrackets least c.rest c.line c.col c.pos [] .none c).map
      fun (text, stop) => (String.ofList text.reverse, stop)
  else
    none

/-- The character for which a letter stands behind a backslash. -/
def escape? (c : Char) : Option Char :=
  match c with
  | '0' => some '\x00'
  | 'a' => some '\x07'
  | 'b' => some '\x08'
  | 't' => some '\t'
  | '\t' => some '\t'
  | 'n' => some '\n'
  | 'v' => some '\x0b'
  | 'f' => some '\x0c'
  | 'r' => some '\r'
  | 'e' => some '\x1b'
  | ' ' => some ' '
  | '"' => some '"'
  | '/' => some '/'
  | '\\' => some '\\'
  | 'N' => some '\u0085'
  | '_' => some '\u00a0'
  | 'L' => some '\u2028'
  | 'P' => some '\u2029'
  | _ => none

/-- How many digits of a code point follow a letter behind a backslash. -/
def codeLength? (c : Char) : Option Nat :=
  if c = 'x' then some 2 else if c = 'u' then some 4 else if c = 'U' then some 8 else none

/-- The character of a code point, if it has one. -/
def charOf? (n : Nat) : Option Char :=
  if h : n.isValidChar then some ⟨n.toUInt32, by
    have hlt : n < UInt32.size := by
      rcases h with h | ⟨-, h⟩ <;> simp only [UInt32.size] <;> omega
    show (n.toUInt32).toNat.isValidChar
    rwa [show (n.toUInt32).toNat = n from UInt32.toNat_ofNat_of_lt' hlt]⟩
  else none

/-- Reads on between quotes: the text so far, the last character first, the gap behind that, and
the digits still missing of a code point with the value of those read. -/
def quotedFrom (mark : Char) :
    List Char → (line col pos : Nat) → List Char → Gap → Option (Nat × Nat) →
      Option (List Char × Cursor)
  | [], _, _, _, _, _, _ => none
  | c :: cs, line, col, pos, text, gap, some (missing, code) =>
    match digit? c with
    | none => none
    | some digit =>
      let code := 16 * code + digit
      if missing ≤ 1 then
        match charOf? code with
        | none => none
        | some x => quotedFrom mark cs line (col + 1) (pos + 1) (x :: text) gap none
      else
        quotedFrom mark cs line (col + 1) (pos + 1) text gap (some (missing - 1, code))
  | c :: cs, line, col, pos, text, gap, none =>
    if isBreak c then
      quotedFrom mark cs (line + 1) 0 (pos + 1) text (gap.addBreak c) none
    else if isBlank c then
      quotedFrom mark cs line (col + 1) (pos + 1) text (gap.addBlank c) none
    else if (Cursor.mk (c :: cs) line col pos).atMarker then
      none
    else if c = mark then
      match mark, cs with
      | '\'', '\'' :: cs =>
        quotedFrom mark cs line (col + 2) (pos + 2) ('\'' :: gap.onto text) .none none
      | _, _ => some (gap.onto text, ⟨cs, line, col + 1, pos + 1⟩)
    else if mark = '"' && c = '\\' then
      match cs with
      | [] => none
      | e :: cs =>
        if isBreak e then
          quotedFrom mark cs (line + 1) 0 (pos + 2) (gap.onto text) (.broken none []) none
        else
          match escape? e, codeLength? e with
          | some x, _ =>
            quotedFrom mark cs line (col + 2) (pos + 2) (x :: gap.onto text) .none none
          | none, some digits =>
            quotedFrom mark cs line (col + 2) (pos + 2) (gap.onto text) .none (some (digits, 0))
          | none, none => none
    else
      quotedFrom mark cs line (col + 1) (pos + 1) (c :: gap.onto text) .none none

/-- Reads a scalar between quotes of the kind that stands here. -/
def quoted (c : Cursor) : Option (String × Cursor) :=
  match c.rest with
  | [] => none
  | mark :: cs =>
    (quotedFrom mark cs c.line (c.col + 1) (c.pos + 1) [] .none none).map
      fun (text, stop) => (String.ofList text.reverse, stop)

/-! ## Blocks of lines -/

/-- What becomes of the line breaks at the end of a block. -/
inductive Chomp where
  | strip
  | clip
  | keep
  deriving DecidableEq

/-- Past a sign that says how the end of a block is treated, if one stands here. -/
def takeSign (c : Cursor) : Option Chomp × Cursor :=
  if c.isAt '+' then (some .keep, c.advance 1)
  else if c.isAt '-' then (some .strip, c.advance 1)
  else (none, c)

/-- Past a digit that gives the indentation of a block, if one stands here; it is not zero. -/
def takeDigit (c : Cursor) : Option (Option Nat × Cursor) :=
  match c.rest.head? with
  | some x =>
    if !x.isDigit then some (none, c)
    else if x = '0' then none
    else some (digit? x, c.advance 1)
  | none => some (none, c)

/-- The marks behind the one that opens a block: a sign and a digit in either order. -/
def blockHeader (c : Cursor) : Option (Chomp × Option Nat × Cursor) := do
  let (before, c) := takeSign c
  let (digit, c) ← takeDigit c
  let (behind, c) := if before.isNone && digit.isSome then takeSign c else (none, c)
  some ((before <|> behind).getD .clip, digit, c)

/-- Past empty lines and indentation: the line breaks passed, the last first, the deepest
indentation seen, and the start of the line arrived at with the place there. With an indentation of
zero all spaces count. -/
def blockBreaks (indent : Nat) :
    List Char → (line col pos : Nat) → List Char → Nat → Cursor →
      Option (List Char × Nat × Cursor × Cursor)
  | [], line, col, pos, breaks, deepest, lineStart =>
    some (breaks, max deepest col, lineStart, ⟨[], line, col, pos⟩)
  | c :: cs, line, col, pos, breaks, deepest, lineStart =>
    if c = ' ' && (indent = 0 || col < indent) then
      blockBreaks indent cs line (col + 1) (pos + 1) breaks deepest lineStart
    else if c = '\t' && (indent = 0 || col < indent) then
      none
    else if isBreak c then
      blockBreaks indent cs (line + 1) 0 (pos + 1) (c :: breaks) (max deepest col)
        ⟨cs, line + 1, 0, pos + 1⟩
    else
      some (breaks, max deepest col, lineStart, ⟨c :: cs, line, col, pos⟩)

/-- What has been read of a block. -/
structure BlockText where
  /-- The text, the last character first. -/
  text : List Char
  /-- The break at the end of the last line, if there is a last line. -/
  leading : List Char
  /-- Whether the last line began with a blank. -/
  blankLine : Bool
  /-- The breaks of the empty lines behind it, the last first. -/
  trailing : List Char

/-- Adds the breaks in front of a line to the text; between two lines of a folded block that do
not begin with a blank they are folded. -/
def BlockText.joined (b : BlockText) (literal blankLine : Bool) : List Char :=
  if !literal && b.leading = ['\n'] && !b.blankLine && !blankLine then
    if b.trailing.isEmpty then ' ' :: b.text else b.trailing ++ b.text
  else
    b.trailing ++ (b.leading ++ b.text)

/-- Reads the lines of a block, at most a number of them. -/
def blockLines (literal : Bool) (indent : Nat) :
    Nat → BlockText → (lineStart here : Cursor) → Option (BlockText × Cursor)
  | 0, b, lineStart, _ => some (b, lineStart)
  | fuel + 1, b, lineStart, here =>
    if here.col = indent && !here.atEnd then
      let blankLine := here.rest.head?.any isBlank
      let line := here.rest.takeWhile (!isBreak ·)
      let after := here.advance line.length
      let text := line.reverse ++ b.joined literal blankLine
      match after.rest with
      | [] => some (⟨text, [], blankLine, []⟩, after)
      | c :: cs =>
        let next : Cursor := ⟨cs, after.line + 1, 0, after.pos + 1⟩
        match blockBreaks indent cs next.line 0 next.pos [] 0 next with
        | none => none
        | some (trailing, _, lineStart, here) =>
          blockLines literal indent fuel ⟨text, [c], blankLine, trailing⟩ lineStart here
    else
      some (b, lineStart)

/-- Reads a block of lines, which stands in something with an indentation below `least`. -/
def block (least : Nat) (c : Cursor) : Option (String × Cursor) := do
  let literal := c.isAt '|'
  let (chomp, indentation, c) ← blockHeader (c.advance 1)
  let c := c.skipBlanks
  let c := if c.isAt '#' then c.advance (c.rest.takeWhile (!isBreak ·)).length else c
  match c.rest with
  | [] => some ("", c)
  | x :: cs =>
    if isBreak x then
      let next : Cursor := ⟨cs, c.line + 1, 0, c.pos + 1⟩
      let given := (indentation.map (least - 1 + ·)).getD 0
      let (breaks, deepest, lineStart, here) ←
        blockBreaks given cs next.line 0 next.pos [] 0 next
      let indent := if given = 0 then max deepest (max least 1) else given
      let (b, stop) ← blockLines literal indent c.rest.length ⟨[], [], false, breaks⟩ lineStart here
      let text :=
        match chomp with
        | .strip => b.text
        | .clip => b.leading ++ b.text
        | .keep => b.trailing ++ (b.leading ++ b.text)
      some (String.ofList text.reverse, stop)
    else
      none

end Scalar

end Yaml

end KeyReserve
