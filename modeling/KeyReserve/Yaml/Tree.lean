/-!
# Document trees

What a configuration file says, apart from how it is laid out: scalars, sequences and mappings,
some of them with a tag. A part can be given a name, and the name stands for it later on.

## Main definitions

* `Yaml.Tree`: a document as it is written, with names in it;
* `Yaml.Tree.resolve`: the document with the named parts in the place of their names.
-/

namespace KeyReserve

namespace Yaml

/-- How a scalar is written. -/
inductive Style where
  /-- Without any mark, so that its text may mean a number or nothing. -/
  | plain
  /-- Between quotes, or folded. -/
  | quoted
  /-- As a block of lines that are kept. -/
  | literal
  deriving DecidableEq, Inhabited

/-- A document or a part of one. -/
inductive Tree where
  | scalar (style : Style) (text : String)
  | sequence (items : List Tree)
  | mapping (entries : List (Tree × Tree))
  /-- A part with a tag in front. -/
  | tagged (tag : String) (tree : Tree)
  /-- A part that is given a name. -/
  | anchored (name : String) (tree : Tree)
  /-- The name of an earlier part. -/
  | alias (name : String)
  deriving Inhabited

namespace Tree

/-- The scalar without marks or text, which stands where nothing is written. -/
def blank : Tree := .scalar .plain ""

/-- A scalar without marks. -/
def word (text : String) : Tree := .scalar .plain text

mutual

/-- Puts the parts that have been named in the place of their names, and adds those named here.
Fails at a name that nothing has. -/
def resolve (named : List (String × Tree)) : Tree → Option (Tree × List (String × Tree))
  | .scalar style text => some (.scalar style text, named)
  | .sequence items => do
    let (items, named) ← resolveItems named items
    some (.sequence items, named)
  | .mapping entries => do
    let (entries, named) ← resolveEntries named entries
    some (.mapping entries, named)
  | .tagged tag tree => do
    let (tree, named) ← resolve named tree
    some (.tagged tag tree, named)
  | .anchored name tree => do
    let (tree, named) ← resolve named tree
    some (tree, (name, tree) :: named)
  | .alias name => do
    let tree ← named.lookup name
    some (tree, named)

/-- Resolves items in their order. -/
def resolveItems (named : List (String × Tree)) :
    List Tree → Option (List Tree × List (String × Tree))
  | [] => some ([], named)
  | t :: ts => do
    let (t, named) ← resolve named t
    let (ts, named) ← resolveItems named ts
    some (t :: ts, named)

/-- Resolves entries in their order, the key of each before its value. -/
def resolveEntries (named : List (String × Tree)) :
    List (Tree × Tree) → Option (List (Tree × Tree) × List (String × Tree))
  | [] => some ([], named)
  | (k, v) :: es => do
    let (k, named) ← resolve named k
    let (v, named) ← resolve named v
    let (es, named) ← resolveEntries named es
    some ((k, v) :: es, named)

end

end Tree

end Yaml

end KeyReserve
