import KeyReserve.Yaml.Scalar
import KeyReserve.Yaml.Tree

/-!
# Names, tags and directives

A part of a document may be given a name with an ampersand, be named with an asterisk, and carry a
tag behind an exclamation mark. Directives in front of a document declare short forms of tags.

## Main definitions

* `Yaml.Mark.name`, `Yaml.Mark.tag`, `Yaml.Mark.properties`: what may stand in front of a part;
* `Yaml.Mark.directives`: the lines in front of a document.
-/

namespace KeyReserve

namespace Yaml

namespace Mark

/-- Characters of names. -/
def isNameChar (c : Char) : Bool := c.isAlphanum || c = '_' || c = '-'

/-- Characters of tags. -/
def isTagChar (c : Char) : Bool := isNameChar c || ";/?:@&=+$.!~*'()%".contains c

/-- Reads the name behind an ampersand or an asterisk. -/
def name (c : Cursor) : Option (String × Cursor) :=
  let c := c.advance 1
  let chars := c.rest.takeWhile isNameChar
  let c := c.advance chars.length
  if !chars.isEmpty && (blankAhead c.rest || c.rest.head?.any ("?:,]\x7d%@\x60".contains ·)) then
    some (String.ofList chars, c)
  else
    none

/-- The short forms of tags that hold without a directive. -/
def standardForms : List (String × String) := [("!", "!"), ("!!", "tag:yaml.org,2002:")]

/-- Reads a tag in full, between angle brackets behind the exclamation mark. -/
def fullTag (c : Cursor) : Option (String × Cursor) :=
  let c := c.advance 2
  let chars := c.rest.takeWhile fun x => isTagChar x || x = ',' || x = '[' || x = ']'
  let c := c.advance chars.length
  if !chars.isEmpty && c.isAt '>' then some (String.ofList chars, c.advance 1) else none

/-- Reads a tag in its short form: a declared start between exclamation marks, or a single one,
and the rest of the tag. -/
def shortTag (forms : List (String × String)) (c : Cursor) : Option (String × Cursor) :=
  let behind := c.rest.drop 1
  let first := behind.takeWhile isNameChar
  match behind.drop first.length with
  | '!' :: r =>
    let chars := r.takeWhile isTagChar
    let form := "!" ++ String.ofList first ++ "!"
    match forms.lookup form with
    | some start =>
      if chars.isEmpty then none
      else some (start ++ String.ofList chars, c.advance (first.length + 2 + chars.length))
    | none => none
  | _ =>
    let chars := behind.takeWhile isTagChar
    let start := (forms.lookup "!").getD "!"
    some (if chars.isEmpty then "!" else start ++ String.ofList chars,
      c.advance (1 + chars.length))

/-- Reads a tag. -/
def tag (forms : List (String × String)) (inBrackets : Bool) (c : Cursor) :
    Option (String × Cursor) := do
  let (text, c) ← if (c.rest.drop 1).head? = some '<' then fullTag c else shortTag forms c
  if blankAhead c.rest || (inBrackets && c.isAt ',') then some (text, c) else none

/-- A name and a tag in front of a part. -/
structure Properties where
  name : Option String := none
  tag : Option String := none

/-- The part with its properties. -/
def Properties.dress (p : Properties) (t : Tree) : Tree :=
  let t := (p.tag.map (Tree.tagged · t)).getD t
  (p.name.map (Tree.anchored · t)).getD t

/-- Whether properties stand here. -/
def atProperties (c : Cursor) : Bool := c.isAt '&' || c.isAt '!'

/-- Past what separates tokens, in brackets or out of them. -/
def skip (inBrackets : Bool) (c : Cursor) : Cursor :=
  if inBrackets then c.skipInBrackets else c.skip true

/-- Reads a name, a tag or both, in either order. -/
def properties (forms : List (String × String)) (inBrackets : Bool) (c : Cursor) :
    Option (Properties × Cursor) :=
  if c.isAt '&' then do
    let (n, c) ← name c
    let d := skip inBrackets c
    if d.isAt '!' && d.line = c.line then
      let (t, c) ← tag forms inBrackets d
      some ({ name := n, tag := t }, c)
    else
      some ({ name := n }, c)
  else do
    let (t, c) ← tag forms inBrackets c
    let d := skip inBrackets c
    if d.isAt '&' && d.line = c.line then
      let (n, c) ← name d
      some ({ name := n, tag := t }, c)
    else
      some ({ tag := t }, c)

/-- The words of the directive on a line, without a comment behind them. -/
def directiveWords (line : List Char) : List String :=
  ((String.ofList line).splitOn " ").flatMap (·.splitOn "\t")
    |>.filter (!·.isEmpty)
    |>.takeWhile (!·.startsWith "#")

/-- Whether a version is one that documents may ask for. -/
def isKnownVersion (v : String) : Bool := v = "1.1" || v = "1.2"

/-- What directives have declared. -/
structure Declared where
  version : Bool := false
  forms : List (String × String) := []

/-- Takes in the words of a directive. Those of unknown kinds count for nothing. -/
def Declared.add (d : Declared) : List String → Option Declared
  | "%YAML" :: v :: [] =>
    if isKnownVersion v && !d.version then some { d with version := true } else none
  | "%YAML" :: _ => none
  | "%TAG" :: form :: start :: [] =>
    if (d.forms.lookup form).isSome || !form.startsWith "!" then none
    else some { d with forms := (form, start) :: d.forms }
  | "%TAG" :: _ => none
  | "%" :: _ => none
  | _ => some d

/-- Reads the directives in front of a document, at most a number of them. -/
def directives : Nat → Declared → Cursor → Option (Declared × Cursor)
  | 0, _, _ => none
  | fuel + 1, d, c =>
    if c.col = 0 && c.isAt '%' then
      let line := c.rest.takeWhile (!isBreak ·)
      match d.add (directiveWords line) with
      | none => none
      | some d => directives fuel d ((c.advance line.length).skip false)
    else
      some (d, c)

end Mark

end Yaml

end KeyReserve
