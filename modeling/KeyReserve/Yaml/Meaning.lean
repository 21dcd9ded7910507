import KeyReserve.Yaml.Numeral
import KeyReserve.Yaml.Tree

/-!
# What parts of documents mean

A scalar without marks may mean a number or nothing; between quotes it is a text. Where nothing is
written, an empty collection or an unset value is meant, and a number is not.

## Main definitions

* `Yaml.Tree.number?`, `Yaml.Tree.choice?`, `Yaml.Tree.items?`, `Yaml.Tree.fields?`,
  `Yaml.Tree.optional?`: what a part means where one of these is expected.
-/

namespace KeyReserve

namespace Yaml

/-- Texts that say that nothing is meant. -/
def isNull (text : String) : Bool :=
  text = "null" || text = "Null" || text = "NULL" || text = "~"

/-- The tag of whole numbers. -/
def intTag : String := "tag:yaml.org,2002:int"

/-- The tag of nothing. -/
def nullTag : String := "tag:yaml.org,2002:null"

namespace Tree

/-- Whether nothing is written here. -/
def isBlank : Tree → Bool
  | .scalar .plain text => text.isEmpty
  | _ => false

/-- The part without its tags. -/
def untagged : Tree → Tree
  | .tagged _ t => untagged t
  | t => t

/-- The number meant, where a number is expected. -/
def number? : Tree → Option UInt64
  | .scalar .plain text => unsigned? text
  | .tagged _ (.scalar .plain text) => unsigned? text
  | .tagged tag (.scalar .literal text) => if tag = intTag then unsigned? text else none
  | _ => none

/-- The number meant, where a number of 32 bits is expected. -/
def number32? (t : Tree) : Option UInt32 :=
  t.number?.bind fun n => if n.toNat < UInt32.size then some n.toUInt32 else none

/-- The name meant, where one of several names is expected. A tag of one's own is such a name, with
nothing behind it. -/
def choice? : Tree → Option String
  | .scalar _ text => some text
  | .tagged tag t =>
    match tag.toList with
    | '!' :: cs =>
      match t with
      | .scalar .plain text =>
        if text.isEmpty || isNull text then some (String.ofList cs) else none
      | _ => none
    | _ => choice? t
  | _ => none

/-- The items meant, where a list is expected. -/
def items? (t : Tree) : Option (List Tree) :=
  match t.untagged with
  | .sequence items => some items
  | t => if t.isBlank then some [] else none

/-- The text of a key. -/
def key? (t : Tree) : Option String :=
  match t.untagged with
  | .scalar _ text => some text
  | _ => none

/-- Entries with the texts of their keys. -/
def fieldsOf : List (Tree × Tree) → Option (List (String × Tree))
  | [] => some []
  | (k, v) :: es => do
    let k ← k.key?
    let fs ← fieldsOf es
    some ((k, v) :: fs)

/-- The fields meant, where a section is expected. -/
def fields? (t : Tree) : Option (List (String × Tree)) :=
  match t.untagged with
  | .mapping entries => fieldsOf entries
  | t => if t.isBlank then some [] else none

/-- What is meant where something may be unset: nothing, or a part. -/
def optional? (t : Tree) : Option (Option Tree) :=
  match t with
  | .scalar .plain text => some (if text.isEmpty || isNull text then none else some t)
  | .tagged tag (.scalar .plain text) =>
    if tag = nullTag then if isNull text then some none else none else some (some t)
  | t => some (some t)

end Tree

/-- The value of a field, or a standard one where the field is missing. Fails if the field is there
twice. -/
def field {α : Type} (fields : List (String × Tree)) (name : String) (standard : α)
    (read : Tree → Option α) : Option α :=
  match fields.filter (·.1 = name) with
  | [] => some standard
  | [(_, t)] => read t
  | _ => none

end Yaml

end KeyReserve
