import KeyReserve.Config.Basic
import KeyReserve.Yaml.Meaning

/-!
# Configurations as documents

A configuration is written as a mapping of sections, and each section as a mapping of settings. A
missing section or setting has its standard value, and settings of unknown names are passed over.

## Main definitions

* `Config.ofTree`: the configuration that a document means, if it means one;
* `Config.toTree`: the document of a configuration, in which what is unset or empty is left out.
-/

namespace KeyReserve

open Yaml (Tree field)

/-- A number as a part of a document. -/
def Yaml.Tree.ofNumber (n : UInt64) : Tree := .word (toString n)

/-- A field as an entry of a document. -/
def Yaml.Tree.entry (name : String) (value : Tree) : Tree × Tree := (.word name, value)

/-- The name of a mode of encryption in a document. -/
def Encryption.name : Encryption → String
  | .plain => "none"
  | .oneTimePad => "one_time_pad"
  | .aes256 => "aes256"

def Encryption.ofName? : String → Option Encryption
  | "none" => some .plain
  | "one_time_pad" => some .oneTimePad
  | "aes256" => some .aes256
  | _ => none

/-- The name of a mode of authentication in a document. -/
def Authentication.name : Authentication → String
  | .untagged => "none"
  | .vmac => "vmac"

def Authentication.ofName? : String → Option Authentication
  | "none" => some .untagged
  | "vmac" => some .vmac
  | _ => none

/-- The name of a role in a document. -/
def Role.name : Role → String
  | .proactive => "proactive"
  | .reactive => "reactive"

def Role.ofName? : String → Option Role
  | "proactive" => some .proactive
  | "reactive" => some .reactive
  | _ => none

/-- The node number meant by a part. -/
def NodeId.ofTree (t : Tree) : Option NodeId := t.number32?.map NodeId.mk

/-- Reads what may be unset. -/
def Yaml.Tree.unlessUnset {α : Type} (read : Tree → Option α) (t : Tree) : Option (Option α) :=
  match t.optional? with
  | none => none
  | some none => some none
  | some (some t) => (read t).map some

def NodeSettings.ofTree (t : Tree) : Option NodeSettings := do
  let fs ← t.fields?
  let id ← field fs "id" none (Tree.unlessUnset NodeId.ofTree)
  let tickInterval ← field fs "tick_interval_ms" standard.tickInterval Tree.number?
  some { id, tickInterval }

def NodeSettings.toTree (s : NodeSettings) : Tree :=
  .mapping ((s.id.map fun id => Tree.entry "id" (.ofNumber id.val.toUInt64)).toList ++
    [Tree.entry "tick_interval_ms" (.ofNumber s.tickInterval)])

def Bounds.ofTree (t : Tree) : Option Bounds := do
  let fs ← t.fields?
  let minimum ← field fs "minimum" standard.minimum Tree.number?
  let threshold ← field fs "threshold" standard.threshold Tree.number?
  let maximum ← field fs "maximum" standard.maximum Tree.number?
  let initial ← field fs "initial" standard.initial Tree.number?
  some { minimum, threshold, maximum, initial }

def Bounds.toTree (b : Bounds) : Tree :=
  .mapping
    [Tree.entry "minimum" (.ofNumber b.minimum), Tree.entry "threshold" (.ofNumber b.threshold),
      Tree.entry "maximum" (.ofNumber b.maximum), Tree.entry "initial" (.ofNumber b.initial)]

def ChargingSettings.ofTree (t : Tree) : Option ChargingSettings := do
  let fs ← t.fields?
  let sendSize ← field fs "send_size" standard.sendSize Tree.number?
  let roundInterval ← field fs "round_interval_ms" standard.roundInterval Tree.number?
  let totalAmount ← field fs "total_amount" standard.totalAmount Tree.number?
  some { sendSize, roundInterval, totalAmount }

def ChargingSettings.toTree (s : ChargingSettings) : Tree :=
  .mapping
    [Tree.entry "send_size" (.ofNumber s.sendSize),
      Tree.entry "round_interval_ms" (.ofNumber s.roundInterval),
      Tree.entry "total_amount" (.ofNumber s.totalAmount)]

def Tariff.ofTree (t : Tree) : Option Tariff := do
  let fs ← t.fields?
  let encryption ← field fs "encryption" standard.encryption (·.choice?.bind Encryption.ofName?)
  let authentication ←
    field fs "authentication" standard.authentication (·.choice?.bind Authentication.ofName?)
  let otpBytesPerByte ← field fs "otp_bytes_per_byte" standard.otpBytesPerByte Tree.number?
  let aesKeyBytes ← field fs "aes_key_bytes" standard.aesKeyBytes Tree.number?
  let authTagBytes ← field fs "auth_tag_bytes" standard.authTagBytes Tree.number?
  some { encryption, authentication, otpBytesPerByte, aesKeyBytes, authTagBytes }

def Tariff.toTree (s : Tariff) : Tree :=
  .mapping
    [Tree.entry "encryption" (.word s.encryption.name),
      Tree.entry "authentication" (.word s.authentication.name),
      Tree.entry "otp_bytes_per_byte" (.ofNumber s.otpBytesPerByte),
      Tree.entry "aes_key_bytes" (.ofNumber s.aesKeyBytes),
      Tree.entry "auth_tag_bytes" (.ofNumber s.authTagBytes)]

def RoutingSettings.ofTree (t : Tree) : Option RoutingSettings := do
  let fs ← t.fields?
  let protocol ← field fs "protocol" standard.protocol (·.choice?.bind Role.ofName?)
  let securedMin ← field fs "secured_min_bytes" standard.securedMin Tree.number?
  let bestEffortMin ← field fs "best_effort_min_bytes" standard.bestEffortMin Tree.number?
  let epochLength ← field fs "epoch_ms" standard.epochLength Tree.number?
  let seed ← field fs "seed" standard.seed Tree.number?
  let firstStream ← field fs "first_stream" standard.firstStream Tree.number?
  let routeLifetime ← field fs "route_lifetime_ms" standard.routeLifetime Tree.number?
  let maxRequestJitter ← field fs "max_request_jitter_ms" standard.maxRequestJitter Tree.number?
  some { protocol, securedMin, bestEffortMin, epochLength, seed, firstStream, routeLifetime,
         maxRequestJitter }

def RoutingSettings.toTree (s : RoutingSettings) : Tree :=
  .mapping
    [Tree.entry "protocol" (.word s.protocol.name),
      Tree.entry "secured_min_bytes" (.ofNumber s.securedMin),
      Tree.entry "best_effort_min_bytes" (.ofNumber s.bestEffortMin),
      Tree.entry "epoch_ms" (.ofNumber s.epochLength),
      Tree.entry "seed" (.ofNumber s.seed),
      Tree.entry "first_stream" (.ofNumber s.firstStream),
      Tree.entry "route_lifetime_ms" (.ofNumber s.routeLifetime),
      Tree.entry "max_request_jitter_ms" (.ofNumber s.maxRequestJitter)]

def DelaySettings.ofTree (t : Tree) : Option DelaySettings := do
  let fs ← t.fields?
  let defaultMaxDelay ←
    field fs "default_max_delay_ms" standard.defaultMaxDelay Tree.number?
  some { defaultMaxDelay }

def DelaySettings.toTree (s : DelaySettings) : Tree :=
  .mapping [Tree.entry "default_max_delay_ms" (.ofNumber s.defaultMaxDelay)]

/-- The one setting that has no standard value is the peer. -/
def LinkSettings.ofTree (t : Tree) : Option LinkSettings := do
  let fs ← t.fields?
  let peer ← field fs "peer" none (fun t => (NodeId.ofTree t).map some)
  let bounds ← field fs "buffer" none (Tree.unlessUnset Bounds.ofTree)
  peer.map fun peer => { peer, bounds }

def LinkSettings.toTree (s : LinkSettings) : Tree :=
  .mapping (Tree.entry "peer" (.ofNumber s.peer.val.toUInt64) ::
    (s.bounds.map fun b => Tree.entry "buffer" b.toTree).toList)

/-- Reads every part of a list. -/
def readAll {α : Type} (read : Tree → Option α) : List Tree → Option (List α)
  | [] => some []
  | t :: ts => do
    let x ← read t
    let xs ← readAll read ts
    some (x :: xs)

/-- The configuration that a document means. -/
def Config.ofTree (t : Tree) : Option Config := do
  let fs ← t.fields?
  let node ← field fs "node" standard.node NodeSettings.ofTree
  let buffer ← field fs "buffer" standard.buffer Bounds.ofTree
  let charging ← field fs "charging" standard.charging ChargingSettings.ofTree
  let cost ← field fs "cost" standard.cost Tariff.ofTree
  let routing ← field fs "routing" standard.routing RoutingSettings.ofTree
  let delay ← field fs "delay" standard.delay DelaySettings.ofTree
  let links ← field fs "links" standard.links
    (fun t => t.items?.bind (readAll LinkSettings.ofTree))
  some { node, buffer, charging, cost, routing, delay, links }

/-- The document of a configuration. -/
def Config.toTree (c : Config) : Tree :=
  .mapping
    ([Tree.entry "node" c.node.toTree, Tree.entry "buffer" c.buffer.toTree,
        Tree.entry "charging" c.charging.toTree, Tree.entry "cost" c.cost.toTree,
        Tree.entry "routing" c.routing.toTree, Tree.entry "delay" c.delay.toTree] ++
      if c.links.isEmpty then []
      else [Tree.entry "links" (.sequence (c.links.map LinkSettings.toTree))])

end KeyReserve
