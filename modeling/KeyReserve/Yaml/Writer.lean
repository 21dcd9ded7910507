import KeyReserve.Yaml.Tree

/-!
# Writing documents

A document is written in block layout: each entry of a mapping on a line of its own, the entries
of an inner mapping two columns deeper, and the items of a sequence in the column of the entry that
they belong to. Scalars are put down as they are, so the writer is for those that need no quotes.

## Main definitions

* `Yaml.write`: the text of a document.
-/

namespace KeyReserve

namespace Yaml

namespace Writer

/-- The text of a scalar. -/
def scalarText : Tree → List Char
  | .scalar _ text => text.toList
  | _ => []

/-- The spaces in front of a column. -/
def indentation (col : Nat) : List Char := List.replicate col ' '

mutual

/-- Writes what stands behind the colon of an entry in a column, up to the end of its lines. -/
def value (col : Nat) : Tree → List Char
  | .scalar _ text => ' ' :: (text.toList ++ ['\n'])
  | .mapping [] => " \x7b\x7d\n".toList
  | .mapping (e :: es) => '\n' :: entries (col + 2) (indentation (col + 2)) (e :: es)
  | .sequence [] => " []\n".toList
  | .sequence (t :: ts) => '\n' :: items col (indentation col) (t :: ts)
  | .tagged _ t => value col t
  | .anchored _ t => value col t
  | .alias name => ' ' :: '*' :: (name.toList ++ ['\n'])

/-- Writes entries in a column, the first of them behind what stands on its line already. -/
def entries (col : Nat) (lead : List Char) : List (Tree × Tree) → List Char
  | [] => []
  | (k, v) :: es =>
    lead ++ (scalarText k ++ (':' :: (value col v ++ entries col (indentation col) es)))

/-- Writes items with their dashes in a column, the first of them behind what stands on its line
already. -/
def items (col : Nat) (lead : List Char) : List Tree → List Char
  | [] => []
  | t :: ts => lead ++ ('-' :: (item col t ++ items col (indentation col) ts))

/-- Writes what stands behind the dash of an item in a column. -/
def item (col : Nat) : Tree → List Char
  | .mapping (e :: es) => entries (col + 2) [' '] (e :: es)
  | .sequence (t :: ts) => items (col + 2) [' '] (t :: ts)
  | .scalar _ text => ' ' :: (text.toList ++ ['\n'])
  | .mapping [] => " \x7b\x7d\n".toList
  | .sequence [] => " []\n".toList
  | .tagged _ t => item col t
  | .anchored _ t => item col t
  | .alias name => ' ' :: '*' :: (name.toList ++ ['\n'])

end

/-- Writes a document. -/
def document : Tree → List Char
  | .mapping (e :: es) => entries 0 [] (e :: es)
  | .sequence (t :: ts) => items 0 [] (t :: ts)
  | .mapping [] => "\x7b\x7d\n".toList
  | .sequence [] => "[]\n".toList
  | t => scalarText t ++ ['\n']

end Writer

/-- The text of a document. -/
def write (t : Tree) : String := String.ofList (Writer.document t)

end Yaml

end KeyReserve
