import KeyReserve.Yaml.Mark

/-!
# Reading documents

A text holds one document. In block layout the column of a line says to which collection it
belongs; between brackets columns are of no account. A key without a mark stands on one line with
the colon behind it and is at most 1024 characters away from that.

## Main definitions

* `Yaml.Reader.bracketNode`, `Yaml.Reader.blockNode`: read a part between brackets and in block
  layout;
* `Yaml.read`: reads a text that holds one document or none.
-/

namespace KeyReserve

namespace Yaml

namespace Reader

/-- Whether a colon at one place makes a key of what begins at another. -/
def makesKey (start colon : Cursor) : Bool :=
  colon.line = start.line && colon.pos ≤ start.pos + 1024

/-- Whether a bracketed part ends here without a value. -/
def atSeparator (c : Cursor) : Bool := c.isAt ',' || c.isAt ']' || c.isAt '}'

mutual

/-- Reads a part between brackets, with properties in front of it or without; what the properties
belong to may be left out. -/
def bracketNode (forms : List (String × String)) (least : Nat) :
    Nat → Cursor → Option (Tree × Cursor)
  | 0, _ => none
  | fuel + 1, c =>
    if c.atMarker then none
    else if Mark.atProperties c then do
      let (p, c) ← Mark.properties forms true c
      let d := c.skipInBrackets
      if atSeparator d || d.isAt ':' then some (p.dress .blank, c)
      else if Mark.atProperties d || d.isAt '*' then none
      else
        let (t, c) ← content forms true least fuel d
        some (p.dress t, c)
    else content forms true least fuel c

/-- Reads a scalar, a name of an earlier part or a bracketed collection. -/
def content (forms : List (String × String)) (inBrackets : Bool) (least : Nat) :
    Nat → Cursor → Option (Tree × Cursor)
  | 0, _ => none
  | fuel + 1, c =>
    if c.isAt '[' then items forms least fuel [] (c.advance 1).skipInBrackets
    else if c.isAt '{' then entries forms least fuel [] (c.advance 1).skipInBrackets
    else if c.isAt '*' then (Mark.name c).map fun (n, c) => (.alias n, c)
    else if c.isAt '\'' || c.isAt '"' then
      (Scalar.quoted c).map fun (text, c) => (.scalar .quoted text, c)
    else (Scalar.plain inBrackets least c).map fun (text, c) => (.scalar .plain text, c)

/-- Reads the value behind a colon between brackets, which may be left out. -/
def bracketValue (forms : List (String × String)) (least : Nat) :
    Nat → Cursor → Option (Tree × Cursor)
  | 0, _ => none
  | fuel + 1, c =>
    let c := (c.advance 1).skipInBrackets
    if atSeparator c then some (.blank, c) else bracketNode forms least fuel c

/-- Reads a key between brackets with its value, if it has one. The key may stand behind a
question mark. -/
def bracketPair (forms : List (String × String)) (least : Nat) :
    Nat → Cursor → Option (Tree × Option Tree × Cursor)
  | 0, _ => none
  | fuel + 1, c =>
    if c.isAt '?' then do
      let d := (c.advance 1).skipInBrackets
      let (key, e) ←
        if atSeparator d || d.isAt ':' then some (Tree.blank, d)
        else bracketNode forms least fuel d
      let n := e.skipInBrackets
      if n.isAt ':' then
        let (value, e) ← bracketValue forms least fuel n
        some (key, some value, e)
      else
        some (key, some .blank, e)
    else do
      let (key, e) ← bracketNode forms least fuel c
      let n := e.skipInBrackets
      if n.isAt ':' then
        if makesKey c n then
          let (value, e) ← bracketValue forms least fuel n
          some (key, some value, e)
        else none
      else
        some (key, none, e)

/-- Reads the items of a bracketed sequence; a key with a value is a mapping of its own. -/
def items (forms : List (String × String)) (least : Nat) :
    Nat → List Tree → Cursor → Option (Tree × Cursor)
  | 0, _, _ => none
  | fuel + 1, done, c =>
    if c.isAt ']' then some (.sequence done.reverse, c.advance 1)
    else do
      let (key, value, e) ← bracketPair forms least fuel c
      let item :=
        match value with
        | some value => .mapping [(key, value)]
        | none => key
      let n := e.skipInBrackets
      if n.isAt ',' then items forms least fuel (item :: done) (n.advance 1).skipInBrackets
      else if n.isAt ']' then some (.sequence (item :: done).reverse, n.advance 1)
      else none

/-- Reads the entries of a bracketed mapping; a key may stand without a value. -/
def entries (forms : List (String × String)) (least : Nat) :
    Nat → List (Tree × Tree) → Cursor → Option (Tree × Cursor)
  | 0, _, _ => none
  | fuel + 1, done, c =>
    if c.isAt '}' then some (.mapping done.reverse, c.advance 1)
    else do
      let (key, value, e) ← bracketPair forms least fuel c
      let entry := (key, value.getD .blank)
      let n := e.skipInBrackets
      if n.isAt ',' then entries forms least fuel (entry :: done) (n.advance 1).skipInBrackets
      else if n.isAt '}' then some (.mapping (entry :: done).reverse, n.advance 1)
      else none

end

/-- Reads what can be a key: properties, content or both. -/
def keyNode (forms : List (String × String)) (least fuel : Nat) (c : Cursor) :
    Option (Tree × Cursor) :=
  if Mark.atProperties c then do
    let (p, c) ← Mark.properties forms false c
    let d := c.skipBlanks
    if d.atMark ':' then some (p.dress .blank, c)
    else
      let (t, c) ← content forms false least fuel d
      some (p.dress t, c)
  else content forms false least fuel c

/-- Reads a block of lines. -/
def blockScalar (least : Nat) (c : Cursor) : Option (Tree × Cursor) :=
  (Scalar.block least c).map fun (text, e) =>
    (.scalar (if c.isAt '|' then .literal else .quoted) text, e)

/-- Whether a token stands on a line of its own, behind a part that has just been read. -/
def onNewLine (part token : Cursor) : Bool := part.line < token.line || part.col = 0

mutual

/-- Reads a part in block layout that begins here. A collection or a key can only begin where
`keys` says so, which is at the start of a line and behind the marks of items and keys. -/
def blockNode (forms : List (String × String)) (least : Nat) (keys : Bool) :
    Nat → Cursor → Option (Tree × Cursor)
  | 0, _ => none
  | fuel + 1, c =>
    if c.atMark '-' then
      if keys then blockItems forms c.col false fuel [] c else none
    else if c.atMark '?' || c.atMark ':' then
      if keys then blockEntries forms c.col fuel [] c else none
    else if c.isAt '|' || c.isAt '>' then blockScalar least c
    else if Mark.atProperties c then do
      let (p, e) ← Mark.properties forms false c
      let d := e.skip true
      if d.atEnd || d.atMarker then some (p.dress .blank, e)
      else if d.line = e.line then
        if d.isAt '|' || d.isAt '>' then
          let (t, e) ← blockScalar least d
          some (p.dress t, e)
        else
          let (t, e) ← keyNode forms least fuel c
          keyOrNode forms keys fuel c t e
      else if d.col < least then some (p.dress .blank, e)
      else
        let (t, e) ← blockNode forms least true fuel d
        some (p.dress t, e)
    else do
      let (t, e) ← keyNode forms least fuel c
      keyOrNode forms keys fuel c t e
  termination_by structural fuel => fuel

/-- Reads on behind something that is a key if a colon follows on the line. -/
def keyOrNode (forms : List (String × String)) (keys : Bool) :
    Nat → (start : Cursor) → Tree → Cursor → Option (Tree × Cursor)
  | 0, _, _, _ => none
  | fuel + 1, start, t, e =>
    let colon := e.skipBlanks
    if colon.atMark ':' then
      if keys && makesKey start colon then do
        let (value, e) ← blockValue forms start.col false fuel (colon.advance 1)
        blockNext forms start.col fuel [(t, value)] e
      else none
    else some (t, e)
  termination_by structural fuel => fuel

/-- Reads the value behind the mark of an entry in a column. It stands on the line of the mark, or
deeper on a later line, or is a sequence in the column itself; else nothing is written. -/
def blockValue (forms : List (String × String)) (col : Nat) (keys : Bool) :
    Nat → Cursor → Option (Tree × Cursor)
  | 0, _ => none
  | fuel + 1, e =>
    let d := e.skip (!keys)
    if d.atEnd || d.atMarker then some (.blank, e)
    else if d.line = e.line then blockNode forms (col + 1) keys fuel d
    else if col < d.col then blockNode forms (col + 1) true fuel d
    else if d.col = col && d.atMark '-' then blockItems forms col true fuel [] d
    else some (.blank, e)
  termination_by structural fuel => fuel

/-- Reads the entry of a mapping that begins here in its column, and those below it. -/
def blockEntries (forms : List (String × String)) (col : Nat) :
    Nat → List (Tree × Tree) → Cursor → Option (Tree × Cursor)
  | 0, _, _ => none
  | fuel + 1, done, c =>
    if c.atMark '?' then do
      let (key, e) ← blockValue forms col true fuel (c.advance 1)
      let n := e.skip true
      if n.col = col && !n.atMarker && n.atMark ':' && onNewLine e n then
        let (value, e) ← blockValue forms col true fuel (n.advance 1)
        blockNext forms col fuel ((key, value) :: done) e
      else
        blockNext forms col fuel ((key, .blank) :: done) e
    else if c.atMark ':' then do
      let (value, e) ← blockValue forms col true fuel (c.advance 1)
      blockNext forms col fuel ((.blank, value) :: done) e
    else do
      let (key, e) ← keyNode forms (col + 1) fuel c
      let colon := e.skipBlanks
      if colon.atMark ':' && makesKey c colon then
        let (value, e) ← blockValue forms col false fuel (colon.advance 1)
        blockNext forms col fuel ((key, value) :: done) e
      else none
  termination_by structural fuel => fuel

/-- Goes on behind an entry of a mapping: with the next entry in its column, or out of it. -/
def blockNext (forms : List (String × String)) (col : Nat) :
    Nat → List (Tree × Tree) → Cursor → Option (Tree × Cursor)
  | 0, _, _ => none
  | fuel + 1, done, e =>
    let n := e.skip true
    if n.atEnd || n.atMarker then some (.mapping done.reverse, e)
    else if !onNewLine e n then none
    else if n.col = col then blockEntries forms col fuel done n
    else if n.col < col then some (.mapping done.reverse, e)
    else none
  termination_by structural fuel => fuel

/-- Reads the item of a sequence that begins here in its column, and those below it. A sequence in
the column of a mapping ends where an entry of that begins. -/
def blockItems (forms : List (String × String)) (col : Nat) (inMapping : Bool) :
    Nat → List Tree → Cursor → Option (Tree × Cursor)
  | 0, _, _ => none
  | fuel + 1, done, c => do
    let after := c.advance 1
    let d := after.skip false
    let (item, e) ←
      if d.atEnd || d.atMarker then some (Tree.blank, after)
      else if d.line = after.line || col < d.col then blockNode forms (col + 1) true fuel d
      else some (Tree.blank, after)
    let done := item :: done
    let n := e.skip true
    if n.atEnd || n.atMarker then some (.sequence done.reverse, e)
    else if !onNewLine e n then none
    else if n.col = col then
      if n.atMark '-' then blockItems forms col inMapping fuel done n
      else if inMapping then some (.sequence done.reverse, e)
      else none
    else if n.col < col then some (.sequence done.reverse, e)
    else none
  termination_by structural fuel => fuel

end

/-- How many steps reading a text can take at most, by far. -/
def steps (text : List Char) : Nat := 8 * text.length + 64

/-- Whether nothing follows but marks that end a document. -/
def nothingFollows : Nat → Cursor → Bool
  | 0, _ => false
  | fuel + 1, c =>
    c.atEnd || (c.atDots && nothingFollows fuel ((c.advance 3).skip true))

/-- Reads the root of a document, if anything is written there. -/
def root (forms : List (String × String)) (keys : Bool) (fuel : Nat) (e : Cursor) :
    Option (Tree × Cursor) :=
  let d := e.skip (!keys)
  if d.atEnd || d.atMarker || (d.col = 0 && d.isAt '%') then some (.blank, e)
  else blockNode forms 0 (keys || d.line ≠ e.line) fuel d

/-- Reads the one document of a text. -/
def document (text : List Char) : Option Tree := do
  let fuel := steps text
  let start := Cursor.start text
  let start := if start.isAt '\ufeff' then start.advance 1 else start
  let first := start.skip false
  let (declared, c) ← Mark.directives fuel {} first
  let forms := declared.forms ++ Mark.standardForms
  let (tree, e) ←
    if c.atDashes then root forms false fuel (c.advance 3)
    else if c.pos ≠ first.pos || c.atDots then none
    else root forms true fuel c
  if nothingFollows fuel (e.skip true) then some tree else none

end Reader

/-- Reads a text that holds one document or none, with the parts that have been named in the place
of their names. -/
def read (text : String) : Option Tree :=
  let chars := text.toList
  if chars.all isAllowed then do
    let tree ← Reader.document (normalizeBreaks chars)
    let (tree, _) ← tree.resolve []
    some tree
  else
    none

end Yaml

end KeyReserve
