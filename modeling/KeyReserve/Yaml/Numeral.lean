/-!
# Numerals

Numbers in documents are written in base ten, or in base sixteen, eight or two behind a mark.

## Main definitions

* `Yaml.digit?`: the value of a digit;
* `Yaml.unsigned?`: the word that a text writes.
-/

namespace KeyReserve

namespace Yaml

/-- The value of a digit in bases up to sixteen. -/
def digit? (c : Char) : Option Nat :=
  if c.isDigit then some (c.toNat - '0'.toNat)
  else if 'a' ≤ c && c ≤ 'f' then some (c.toNat - 'a'.toNat + 10)
  else if 'A' ≤ c && c ≤ 'F' then some (c.toNat - 'A'.toNat + 10)
  else none

/-- The number that digits in a base write, behind digits of a given value. -/
def digitsFrom (base : Nat) : Nat → List Char → Option Nat
  | n, [] => some n
  | n, c :: cs =>
    match digit? c with
    | some d => if d < base then digitsFrom base (base * n + d) cs else none
    | none => none

/-- The word that digits in a base write; there is at least one, and the word is not exceeded. -/
def digits? (base : Nat) (cs : List Char) : Option UInt64 :=
  if cs.isEmpty then none
  else (digitsFrom base 0 cs).bind fun n => if n < UInt64.size then some (.ofNat n) else none

/-- The number that a text writes: digits in base ten without a leading zero, or digits in base
sixteen, eight or two behind their mark, with a plus sign in front or without. -/
def unsigned? (text : String) : Option UInt64 :=
  let cs :=
    match text.toList with
    | '+' :: cs => cs
    | cs => cs
  match cs with
  | '0' :: 'x' :: ds => digits? 16 ds
  | '0' :: 'o' :: ds => digits? 8 ds
  | '0' :: 'b' :: ds => digits? 2 ds
  | '0' :: _ :: _ => none
  | ds => digits? 10 ds

end Yaml

end KeyReserve
