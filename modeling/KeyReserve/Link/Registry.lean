import KeyReserve.Buffer
import KeyReserve.Link.Key
import KeyReserve.Link.Stats

/-!
# Established links

Each link that is up owns one key buffer and its statistics; everything else finds them by the
key of the link.

## Main definitions

* `Link`, `Links`: a link that is up, and all of them by key;
* `Links.establish`: brings a link up, unless it is a loop, is up already or has bad bounds;
* `Links.neighbors`: the nodes that a node shares a link with.

## Main results

* `Links.establish_eq_ok_iff`: when a link comes up, and what it is then.
-/

namespace KeyReserve

/-- A link that is up. -/
structure Link where
  buffer : KeyBuffer
  stats : LinkStats
  establishedAt : Millis
  deriving DecidableEq

/-- How long the link has been up. -/
def Link.age (l : Link) (now : Millis) : Millis := now.subSat l.establishedAt

/-- Why an operation on a link is refused. -/
inductive LinkError where
  /-- A node cannot be linked to itself. -/
  | selfLink (node : NodeId)
  | alreadyEstablished (key : LinkKey)
  | notFound (key : LinkKey)
  /-- The key buffer of the link cannot be made. -/
  | buffer (key : LinkKey) (cause : BufferError)
  deriving DecidableEq

/-- The wording of a link error. -/
def LinkError.message : LinkError → String
  | .selfLink node => "cannot secure a link from " ++ node.text ++ " to itself"
  | .alreadyEstablished key => "link " ++ key.text ++ " already established"
  | .notFound key => "link " ++ key.text ++ " not found"
  | .buffer key cause => "key buffer for link " ++ key.text ++ ": " ++ cause.message

/-- The links that are up, by key. -/
abbrev Links := Table LinkKey Link

namespace Links

/-- Brings a link up with a buffer of its own and blank statistics. -/
def establish (ls : Links) (key : LinkKey) (bounds : Bounds) (now : Millis) :
    Except LinkError Links :=
  if key.isLoop then
    .error (.selfLink key.low)
  else if ls.contains key then
    .error (.alreadyEstablished key)
  else
    match KeyBuffer.ofBounds bounds with
    | .error e => .error (.buffer key e)
    | .ok buffer => .ok (ls.insert key ⟨buffer, {}, now⟩)

/-- The link under a key after a change of it; other links stay. -/
def modify (ls : Links) (key : LinkKey) (f : Link → Link) : Links :=
  match ls.find? key with
  | some link => ls.insert key (f link)
  | none => ls

/-- The buffer of a link that is up. -/
def buffer? (ls : Links) (key : LinkKey) : Option KeyBuffer := (ls.find? key).map (·.buffer)

/-- The opposite ends of the links of a node. In the order of keys they ascend: the links in which
the node is the higher end come first, by their lower ends. -/
def neighbors (ls : Links) (node : NodeId) : List NodeId := ls.keys.filterMap (·.other node)

theorem find?_modify (ls : Links) (key j : LinkKey) (f : Link → Link) :
    (ls.modify key f).find? j = if j = key then (ls.find? key).map f else ls.find? j := by
  unfold modify
  cases h : ls.find? key with
  | none =>
    by_cases hj : j = key
    · simp [hj, h]
    · simp [hj]
  | some link => simp [Table.find?_insert]

theorem buffer?_insert (ls : Links) (key j : LinkKey) (l : Link) :
    buffer? (ls.insert key l) j = if j = key then some l.buffer else ls.buffer? j := by
  rw [buffer?, Table.find?_insert]
  split <;> rfl

/-- A link comes up where it is none to itself, is down and has bounds in order. -/
theorem establish_eq_ok_iff {ls ls' : Links} {key : LinkKey} {bounds : Bounds} {now : Millis} :
    establish ls key bounds now = .ok ls' ↔
      key.isLoop = false ∧ ls.find? key = none ∧
        ∃ buffer, KeyBuffer.ofBounds bounds = .ok buffer ∧
          ls' = ls.insert key ⟨buffer, {}, now⟩ := by
  unfold establish
  rw [Table.contains_eq_isSome]
  cases key.isLoop with
  | true => simp
  | false =>
    cases ls.find? key with
    | some l => simp
    | none => cases KeyBuffer.ofBounds bounds <;> simp [eq_comm]

end Links

end KeyReserve
